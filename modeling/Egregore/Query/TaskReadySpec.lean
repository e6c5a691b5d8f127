import Egregore.Query.TaskReady

/-!
# The readiness report is exact

The report of a slice against its dependency graph: the diagnosed cycles are the strongly
connected components with several members or a self edge, and every open or in-progress task is
ready or blocked, by what the graph and the importer's diagnostics say about it. `taskReady_law`
takes the components from the loop of Tarjan's algorithm as the source runs it, with its own
stack of frames.
-/

namespace Egregore

open Base

section Statement

variable (records : List GraphRecord)

/-- A write of the task. -/
def GraphRecord.writesTask (id : String) : GraphRecord → Bool
  | .node record => record.kind = .task && record.id = id
  | _ => false

/-- The last version of a task whose ID is not deleted. -/
structure LiveTask (id : String) (node : NodeRecord) : Prop where
  latest : lastEvent (GraphRecord.writesTask id) records = some (.node node)
  live : (Liveness.new records).deleted id = false

/-- An edge of the dependency graph: a current `DEPENDS_ON` edge of a live task. -/
structure DependencyEdge (edge : EdgeRecord) : Prop where
  latest : lastEvent (GraphRecord.writesEdge edge.id) records = some (.edge edge)
  live : (Liveness.new records).deleted edge.id = false
  label : edge.label = .dependsOn
  source : ∃ node, LiveTask records edge.source node

def DependsOn (source target : String) : Prop :=
  ∃ edge, DependencyEdge records edge ∧ edge.source = source ∧ edge.target = target

/-- The live tasks and what they depend on. -/
def DependencyVertex (id : String) : Prop :=
  (∃ node, LiveTask records id node) ∨ ∃ source, DependsOn records source id

/-- Each depends on the other, through others or not. -/
def Interdependent (id other : String) : Prop :=
  Relation.ReflTransGen (DependsOn records) id other ∧
    Relation.ReflTransGen (DependsOn records) other id

/-- A strongly connected component of the dependency graph, in ascending order. -/
structure DependencyComponent (members : List String) : Prop where
  whole : ∃ root ∈ members, DependencyVertex records root ∧
    ∀ id, id ∈ members ↔ Interdependent records root id
  ascending : members.Pairwise fun id other => byteOrder id other = .lt

/-- Several members, or a self edge. -/
def CyclicMembers (members : List String) : Prop :=
  (∃ id ∈ members, ∃ other ∈ members, id ≠ other) ∨ ∃ id ∈ members, DependsOn records id id

/-- In a component that is a cycle. -/
def OnDependencyCycle (id : String) : Prop :=
  ∃ members, DependencyComponent records members ∧ CyclicMembers records members ∧ id ∈ members

/-- The live task that a file calls by this local ID; of several the last ID. -/
structure TaskAt (path localId id : String) : Prop where
  names : ∃ node, LiveTask records id node ∧ node.repoRelativePath = some path ∧
    node.name = some localId
  last : ∀ other node, LiveTask records other node → node.repoRelativePath = some path →
    node.name = some localId → byteOrder other id ≠ .gt

variable (parsePayload : String → Option UnresolvedDependencyPayload)

/-- A current importer diagnostic says that the task depends on an unknown one, and the task does
not depend on a live task of that name by now. -/
def StandsAgainst (id unknown : String) : Prop :=
  ∃ node payload, lastEvent (GraphRecord.writesNode node.id) records = some (.node node) ∧
    (Liveness.new records).deleted node.id = false ∧ node.kind = .diagnostic ∧
    unresolvedPayload parsePayload node = some payload ∧
    TaskAt records payload.file payload.taskLocalId id ∧ payload.unknownDep = unknown ∧
    ¬ ∃ resolved, TaskAt records payload.file unknown resolved ∧ DependsOn records id resolved

/-- Nothing holds the task up. -/
structure ReadyTask (id : String) : Prop where
  acyclic : ¬ OnDependencyCycle records id
  completed : ∀ target, DependsOn records id target →
    ∃ node, LiveTask records target node ∧ taskStatus node = "closed_completed"
  resolved : ∀ unknown, ¬ StandsAgainst records parsePayload id unknown

/-- A live task that is open or in progress. -/
def CandidateTask (id : String) : Prop :=
  ∃ node, LiveTask records id node ∧ taskStatus node ∈ taskReadyCandidateStatuses

/-- The diagnosed cycles. -/
def TaskReadyReport.cycles (report : TaskReadyReport) : List (List String) :=
  (report.diagnostics.filter fun diagnostic => diagnostic.code = .dependencyCycle).map
    TaskReadyDiagnostic.members

/-- The report says what the graph says, each cycle and each task once. -/
structure ReportExact (report : TaskReadyReport) : Prop where
  cycles : ∀ members, members ∈ report.cycles ↔
    DependencyComponent records members ∧ CyclicMembers records members
  cyclesOnce : report.cycles.Nodup
  ready : ∀ id, id ∈ report.ready.map TaskIdentityRow.recordId ↔
    CandidateTask records id ∧ ReadyTask records parsePayload id
  blocked : ∀ id, id ∈ report.blocked.map (fun row => row.task.recordId) ↔
    CandidateTask records id ∧ ¬ ReadyTask records parsePayload id
  once : (report.ready.map TaskIdentityRow.recordId ++
    report.blocked.map fun row => row.task.recordId).Nodup

/-- The components of the search put together exactly what is interdependent, and each vertex is
in one of them. -/
structure SccExact (sccs : List (List String)) : Prop where
  together : ∀ id other, DependencyVertex records id →
    ((∃ scc ∈ sccs, id ∈ scc ∧ other ∈ scc) ↔ Interdependent records id other)
  covers : ∀ id, DependencyVertex records id ↔ ∃ scc ∈ sccs, id ∈ scc
  disjoint : sccs.Pairwise fun scc other => ∀ id ∈ scc, id ∉ other

/-- There is a report exactly if there is a live task, and it is exact. -/
structure TaskReadyLaw : Prop where
  scc : SccExact records (tarjanScc (depAdj records))
  exact : ∀ report, taskReadyReport records parsePayload = .ready report →
    ReportExact records parsePayload report
  none : taskReadyReport records parsePayload = .noProjectData ↔
    ¬ ∃ id node, LiveTask records id node

end Statement

section Graph

variable {records : List GraphRecord} {id source target : String} {node : NodeRecord}

/-- The map of live tasks holds the latest live version of each. -/
theorem getElem?_liveTasks : (liveTasks records)[id]? = some node ↔ LiveTask records id node := by
  have both : (liveTasks records)[id]? = some node ↔
      (Liveness.new records).deleted id = false ∧
        lastEvent (GraphRecord.writesTask id) records = some (.node node) := by
    rw [liveTasks]
    generalize Liveness.new records = liveness
    induction records using List.reverseRecOn with
    | nil => simp [lastEvent]
    | append_singleton records last ih =>
        rw [List.foldl_append, List.foldl_cons, List.foldl_nil, insertEntry, lastEvent,
          List.filter_append]
        cases last with
        | edge edge => simpa [GraphRecord.writesTask, lastEvent] using ih
        | tombstone tombstone => simpa [GraphRecord.writesTask, lastEvent] using ih
        | node last =>
            by_cases named : last.kind = .task ∧ last.id = id
            · obtain ⟨kind, rfl⟩ := named
              cases deleted : liveness.deleted last.id with
              | true => simpa [deleted] using ih
              | false => simp [deleted, kind, GraphRecord.writesTask]
            · have other : GraphRecord.writesTask id (.node last) = false := by
                simpa [GraphRecord.writesTask] using named
              by_cases inserted : last.kind = .task ∧ liveness.deleted last.id = false
              · have apart : last.id ≠ id := fun same => named ⟨inserted.1, same⟩
                simpa [inserted, other, lastEvent, getElem?_insert_eq, apart] using ih
              · simpa [inserted, other, lastEvent] using ih
  rw [both]
  exact ⟨fun both => ⟨both.2, both.1⟩, fun task => ⟨task.live, task.latest⟩⟩

/-- So it has an ID exactly when a live task does. -/
theorem contains_liveTasks :
    (liveTasks records).contains id = true ↔ ∃ node, LiveTask records id node := by
  rw [← Std.ExtTreeMap.isSome_getElem?_eq_contains, Option.isSome_iff_exists]
  simp only [getElem?_liveTasks]

/-- The dependencies are the live edges between records of any kind. -/
theorem mem_liveDependencies :
    (source, target) ∈ liveDependencies records ↔ DependsOn records source target := by
  simp only [liveDependencies, List.mem_filterMap, Prod.exists, List.mk_mem_zipIdx_iff_getElem?]
  constructor
  · rintro ⟨record, index, found, kept⟩
    cases record with
    | node record => cases kept
    | tombstone record => cases kept
    | edge edge =>
        simp only [Option.ite_none_right_eq_some, Option.some.injEq, Prod.mk.injEq,
          Liveness.isLatestEdgeVersion_new, decide_eq_true_eq, contains_liveTasks] at kept
        obtain ⟨⟨label, live, latest, isTask⟩, rfl, rfl⟩ := kept
        exact ⟨edge, ⟨lastEvent_eq_some_iff.mpr ⟨index, latest, found⟩, live, label, isTask⟩,
          rfl, rfl⟩
  · rintro ⟨edge, isEdge, rfl, rfl⟩
    obtain ⟨index, latest, found⟩ := lastEvent_eq_some_iff.mp isEdge.latest
    refine ⟨.edge edge, index, found, ?_⟩
    simp only [Option.ite_none_right_eq_some, Liveness.isLatestEdgeVersion_new,
      decide_eq_true_eq, contains_liveTasks, and_true]
    exact ⟨isEdge.label, isEdge.live, latest, isEdge.source⟩

/-- A map gets sets by links, from a map of empty sets. -/
theorem mem_getD_foldl_insertLink {links : List (String × String)} (base : StrMap StrSet)
    (empty : ∀ key, base.getD key ∅ = ∅) :
    target ∈ (links.foldl insertLink base).getD source ∅ ↔ (source, target) ∈ links := by
  induction links using List.reverseRecOn with
  | nil => simp [empty]
  | append_singleton links last ih =>
      obtain ⟨key, reached⟩ := last
      rw [List.foldl_append, List.foldl_cons, List.foldl_nil, insertLink,
        Std.ExtTreeMap.getD_alter, List.mem_append, List.mem_singleton, ← ih]
      simp only [byteOrder_eq_iff, Prod.mk.injEq]
      by_cases same : key = source
      · subst same
        simp [Std.ExtTreeMap.getD_eq_getD_getElem?, or_comm, eq_comm (a := reached)]
      · simp [same, Ne.symm same]

/-- The sources of the links are keys of their map, and no others are added. -/
theorem mem_foldl_insertLink_keys {links : List (String × String)} {base : StrMap StrSet} :
    id ∈ links.foldl insertLink base ↔ id ∈ base ∨ ∃ target, (id, target) ∈ links := by
  induction links using List.reverseRecOn with
  | nil => simp
  | append_singleton links last ih =>
      obtain ⟨key, reached⟩ := last
      rw [List.foldl_append, List.foldl_cons, List.foldl_nil, insertLink,
        Std.ExtTreeMap.mem_alter]
      simp only [byteOrder_eq_iff, List.mem_append, List.mem_singleton, Prod.mk.injEq, ih]
      by_cases same : key = id
      · simp [same]
      · simp [same, Ne.symm same]

/-- Entries without targets change no set. -/
theorem getD_foldl_insertIfNew_empty (keys : List String) (base : StrMap StrSet) :
    (keys.foldl (fun adj key => adj.insertIfNew key ∅) base).getD id ∅ = base.getD id ∅ := by
  induction keys generalizing base with
  | nil => rfl
  | cons key keys ih =>
      rw [List.foldl_cons, ih]
      simp only [Std.ExtTreeMap.getD_eq_getD_getElem?, getElem?_insertIfNew_eq]
      by_cases same : key = id
      · cases base[id]? <;> simp [same]
      · simp [same]

/-- Entries for further keys leave the old ones. -/
theorem mem_foldl_insertIfNew (keys : List String) (base : StrMap StrSet) :
    id ∈ keys.foldl (fun adj key => adj.insertIfNew key ∅) base ↔ id ∈ base ∨ id ∈ keys := by
  induction keys generalizing base with
  | nil => simp
  | cons key keys ih =>
      rw [List.foldl_cons, ih, Std.ExtTreeMap.mem_insertIfNew, List.mem_cons, byteOrder_eq_iff]
      grind

/-- The entries of the tasks, before any dependency. -/
def taskEntries (records : List GraphRecord) : StrMap StrSet :=
  (liveTasks records).keys.foldl (fun adj id => adj.insert id ∅) ∅

/-- Before any dependency is seen, every live task has an entry without targets. -/
theorem getElem?_taskEntries : (taskEntries records)[id]? =
    if id ∈ (liveTasks records).keys then some ∅ else none := by
  rw [taskEntries, getElem?_foldl_insert_value (fun _ => ∅), Std.ExtTreeMap.getElem?_empty]

/-- So no target is found in these entries. -/
theorem getD_taskEntries : (taskEntries records).getD id ∅ = ∅ := by
  rw [Std.ExtTreeMap.getD_eq_getD_getElem?, getElem?_taskEntries]
  split <;> rfl

/-- The lists of the graph are the dependencies of each record. -/
theorem mem_getD_depAdj :
    target ∈ (depAdj records).getD source ∅ ↔ DependsOn records source target := by
  rw [depAdj, getD_foldl_insertIfNew_empty, ← mem_liveDependencies]
  exact mem_getD_foldl_insertLink _ fun _ => getD_taskEntries

/-- Both ends of a dependency are vertices of the graph. -/
theorem DependsOn.vertices (depends : DependsOn records source target) :
    DependencyVertex records source ∧ DependencyVertex records target := by
  refine ⟨.inl ?_, .inr ⟨source, depends⟩⟩
  obtain ⟨edge, isEdge, rfl, -⟩ := depends
  exact isEdge.source

/-- The keys of the graph are its vertices: the targets have entries too. -/
theorem mem_keys_depAdj : id ∈ (depAdj records).keys ↔ DependencyVertex records id := by
  rw [Std.ExtTreeMap.mem_keys, depAdj, mem_foldl_insertIfNew, mem_foldl_insertLink_keys]
  simp only [List.mem_flatMap, Prod.exists, Std.ExtTreeSet.mem_toList,
    Std.ExtTreeMap.mem_toList_iff_getElem?_eq_some]
  have isTask : id ∈ taskEntries records ↔ ∃ node, LiveTask records id node := by
    rw [Std.ExtTreeMap.mem_iff_isSome_getElem?, getElem?_taskEntries, ← contains_liveTasks,
      ← Std.ExtTreeMap.mem_iff_contains, ← Std.ExtTreeMap.mem_keys]
    split <;> simp [*]
  constructor
  · rintro ((member | ⟨target, link⟩) | ⟨source, targets, found, member⟩)
    · exact .inl (isTask.mp member)
    · exact (mem_liveDependencies.mp link).vertices.1
    · refine .inr ⟨source, mem_liveDependencies.mp
        ((mem_getD_foldl_insertLink (taskEntries records) fun _ => getD_taskEntries).mp ?_)⟩
      rw [Std.ExtTreeMap.getD_eq_getD_getElem?, taskEntries, found]
      exact member
  · rintro (task | ⟨source, depends⟩)
    · exact .inl (.inl (isTask.mpr task))
    · have linked := (mem_getD_foldl_insertLink (taskEntries records)
        fun _ => getD_taskEntries).mpr (mem_liveDependencies.mpr depends)
      rw [Std.ExtTreeMap.getD_eq_getD_getElem?] at linked
      cases found : ((liveDependencies records).foldl insertLink (taskEntries records))[source]? with
      | none => simp [found] at linked
      | some targets =>
          rw [found] at linked
          exact .inr ⟨source, targets, found, linked⟩

/-! ### Components -/

/-- What a node of the dependency graph links to. -/
def dependencyLinks (records : List GraphRecord) (node : String) : List String :=
  ((depAdj records).getD node ∅).toList

/-- A link of the search is a dependency. -/
theorem mem_dependencyLinks : target ∈ dependencyLinks records source ↔
    DependsOn records source target := by
  rw [dependencyLinks, Std.ExtTreeSet.mem_toList, mem_getD_depAdj]

/-- A walk of links is a chain of dependencies. -/
theorem reaches_dependencyLinks : Reaches (dependencyLinks records) source target ↔
    Relation.ReflTransGen (DependsOn records) source target := by
  have same : (fun source target => target ∈ dependencyLinks records source) =
      DependsOn records := by
    funext source target
    exact propext mem_dependencyLinks
  rw [Reaches, same]

/-- Depending on one another is symmetric. -/
theorem Interdependent.symm {other : String} (both : Interdependent records id other) :
    Interdependent records other id :=
  ⟨both.2, both.1⟩

/-- Depending on one another is transitive. -/
theorem Interdependent.trans {other third : String} (both : Interdependent records id other)
    (also : Interdependent records other third) : Interdependent records id third :=
  ⟨both.1.trans also.1, also.2.trans both.2⟩

/-- The components partition the vertices, each in ascending order. -/
theorem tarjanScc_partitions :
    Tarjan.Partitions (dependencyLinks records) (depAdj records).keys
        (tarjanScc (depAdj records)) ∧
      ∀ scc ∈ tarjanScc (depAdj records), scc.Pairwise fun id other => byteOrder id other = .lt :=
  Tarjan.components_partitions fun _ _ _ neighbour =>
    mem_keys_depAdj.mpr (mem_dependencyLinks.mp neighbour).vertices.2

/-- Every vertex is in a component. -/
theorem covers_tarjanScc :
    DependencyVertex records id ↔ ∃ scc ∈ tarjanScc (depAdj records), id ∈ scc := by
  rw [← mem_keys_depAdj]
  exact tarjanScc_partitions.1.covers id

/-- The root of a component. -/
theorem exists_root {scc : List String} (member : scc ∈ tarjanScc (depAdj records)) :
    ∃ root ∈ scc, ∀ id, id ∈ scc ↔ Interdependent records root id := by
  obtain ⟨root, inside, whole⟩ := tarjanScc_partitions.1.components scc member
  refine ⟨root, inside, fun id => ?_⟩
  rw [whole, reaches_dependencyLinks, reaches_dependencyLinks, Interdependent]

/-- Two vertices share a component exactly when they depend on one another. -/
theorem sccExact_tarjanScc : SccExact records (tarjanScc (depAdj records)) where
  together id other vertex := by
    constructor
    · rintro ⟨scc, member, inside, inside'⟩
      obtain ⟨root, -, whole⟩ := exists_root member
      exact ((whole id).mp inside).symm.trans ((whole other).mp inside')
    · intro both
      obtain ⟨scc, member, inside⟩ := covers_tarjanScc.mp vertex
      obtain ⟨root, -, whole⟩ := exists_root member
      exact ⟨scc, member, inside, (whole other).mpr (((whole id).mp inside).trans both)⟩
  covers _ := covers_tarjanScc
  disjoint := tarjanScc_partitions.1.disjoint

/-- So the components are those of the dependencies. -/
theorem mem_tarjanScc {members : List String} :
    members ∈ tarjanScc (depAdj records) ↔ DependencyComponent records members := by
  constructor
  · intro member
    obtain ⟨root, inside, whole⟩ := exists_root member
    exact ⟨⟨root, inside, covers_tarjanScc.mpr ⟨members, member, inside⟩, whole⟩,
      tarjanScc_partitions.2 members member⟩
  · rintro ⟨⟨root, inside, vertex, whole⟩, ascending⟩
    obtain ⟨scc, member, inside'⟩ := covers_tarjanScc.mp vertex
    obtain ⟨root', -, whole'⟩ := exists_root member
    have same : scc = members := by
      refine eq_of_ascending (tarjanScc_partitions.2 scc member) ascending fun id => ?_
      rw [whole, whole']
      have linked := (whole' root).mp inside'
      exact ⟨linked.symm.trans, linked.trans⟩
    exact same ▸ member

/-- No component is listed twice: it has a member, and members are listed once. -/
theorem nodup_tarjanScc : (tarjanScc (depAdj records)).Nodup := by
  refine tarjanScc_partitions.1.disjoint.imp_of_mem fun member _ apart same => ?_
  obtain ⟨root, inside, -⟩ := exists_root member
  exact apart root inside (same ▸ inside)

/-- The test for a cycle is made on the size of a component, and on a loop at its only member. -/
theorem cyclicMembers_iff {members : List String}
    (ascending : members.Pairwise fun id other => byteOrder id other = .lt) :
    (members.length > 1 || members.head?.any fun only =>
        ((depAdj records).getD only ∅).contains only) = true ↔
      CyclicMembers records members := by
  cases ascending with
  | nil => simp [CyclicMembers]
  | cons before rest =>
      rename_i first members
      cases members with
      | nil =>
          simp [CyclicMembers, mem_getD_depAdj]
      | cons second members =>
          have less := before second List.mem_cons_self
          have apart : first ≠ second := by
            intro same
            rw [same, (Std.ReflCmp.compare_self : byteOrder second second = .eq)] at less
            cases less
          refine iff_of_true (by simp) (.inl ⟨first, ?_, second, ?_, apart⟩) <;> simp

/-- The cycles are the components that pass it. -/
theorem mem_dependencyCycles {members : List String} :
    members ∈ dependencyCycles records ↔
      DependencyComponent records members ∧ CyclicMembers records members := by
  rw [dependencyCycles, List.mem_insertionSort, List.mem_filter, mem_tarjanScc]
  exact and_congr_right fun component => cyclicMembers_iff component.ascending

/-- Each cycle is listed once. -/
theorem nodup_dependencyCycles : (dependencyCycles records).Nodup :=
  (List.perm_insertionSort _ _).nodup_iff.mpr (nodup_tarjanScc.filter _)

/-! ### Names -/

/-- The place that declares a task is its path with its local name. -/
theorem taskSource_eq_some_iff {task : String × NodeRecord} {path localId : String} :
    taskSource task = some ((path, localId), id) ↔
      task.2.repoRelativePath = some path ∧ task.2.name = some localId ∧ task.1 = id := by
  rw [taskSource]
  split
  next path' name' hasPath hasName => simp [hasPath, hasName, and_assoc]
  next none =>
      refine iff_of_false (by simp) fun ⟨hasPath, hasName, _⟩ => none _ _ hasPath hasName

/-- Of the tasks at one place the last in ID order is found. -/
theorem getElem?_taskBySource {path localId : String} :
    (taskBySource records)[(path, localId)]? = some id ↔ TaskAt records path localId id := by
  let ids := ((liveTasks records).toList.filter fun task =>
    task.2.repoRelativePath = some path ∧ task.2.name = some localId).map Prod.fst
  have listed : ∀ id, id ∈ ids ↔ ∃ node, LiveTask records id node ∧
      node.repoRelativePath = some path ∧ node.name = some localId := by
    intro id
    simp only [ids, List.mem_map, List.mem_filter, Prod.exists, exists_and_right,
      exists_eq_right, Std.ExtTreeMap.mem_toList_iff_getElem?_eq_some, getElem?_liveTasks,
      decide_eq_true_eq]
  have ascending : ids.Pairwise fun id other => byteOrder id other = .lt :=
    List.pairwise_map.mpr (Std.ExtTreeMap.ordered_keys_toList.filter _)
  have entries : ∀ tasks : List (String × NodeRecord),
      (tasks.filterMap taskSource).filter (fun pair => pair.1 = (path, localId)) =
        (tasks.filter fun task =>
          task.2.repoRelativePath = some path ∧ task.2.name = some localId).map
            fun task => ((path, localId), task.1) := by
    intro tasks
    induction tasks with
    | nil => rfl
    | cons task tasks ih =>
        by_cases named : task.2.repoRelativePath = some path ∧ task.2.name = some localId
        · have source : taskSource task = some ((path, localId), task.1) :=
            taskSource_eq_some_iff.mpr ⟨named.1, named.2, rfl⟩
          simpa [List.filterMap_cons, source, named] using ih
        · cases source : taskSource task with
          | none => simpa [List.filterMap_cons, source, named] using ih
          | some pair =>
              obtain ⟨⟨path', localId'⟩, id'⟩ := pair
              have has := taskSource_eq_some_iff.mp source
              have apart : (path', localId') ≠ (path, localId) := fun same => by
                cases same
                exact named ⟨has.1, has.2.1⟩
              simpa [List.filterMap_cons, source, named, apart] using ih
  have found : (taskBySource records)[(path, localId)]? = ids.getLast? := by
    rw [taskBySource, getElem?_foldl_insertEntry, Std.ExtTreeMap.getElem?_empty, Option.or_none,
      entries, List.getLast?_map, List.getLast?_map, Option.map_map]
    rfl
  rw [found, getLast?_ascending ascending, listed]
  constructor
  · exact fun ⟨names, last⟩ => ⟨names, fun other node task path localId =>
      last other ((listed other).mpr ⟨node, task, path, localId⟩)⟩
  · exact fun isAt => ⟨isAt.names, fun other member =>
      let ⟨node, task, path, localId⟩ := (listed other).mp member
      isAt.last other node task path localId⟩

end Graph

section Report

variable {records : List GraphRecord}
  {parsePayload : String → Option UnresolvedDependencyPayload} {id : String} {node : NodeRecord}

/-- A declaration counts while its diagnostic is live, its task is found, and no dependency of that
task has the missing name. -/
theorem mem_unresolvedDeclarations {payload : UnresolvedDependencyPayload} :
    (id, payload) ∈ unresolvedDeclarations records parsePayload ↔
      ∃ node, lastEvent (GraphRecord.writesNode node.id) records = some (.node node) ∧
        (Liveness.new records).deleted node.id = false ∧ node.kind = .diagnostic ∧
        unresolvedPayload parsePayload node = some payload ∧
        TaskAt records payload.file payload.taskLocalId id ∧
        ¬ ∃ resolved, TaskAt records payload.file payload.unknownDep resolved ∧
          DependsOn records id resolved := by
  simp only [unresolvedDeclarations, List.mem_filterMap, Prod.exists,
    List.mk_mem_zipIdx_iff_getElem?]
  constructor
  · rintro ⟨record, index, found, kept⟩
    cases record with
    | edge edge => cases kept
    | tombstone tombstone => cases kept
    | node node =>
        simp only [Option.ite_none_right_eq_some, Option.bind_eq_some_iff,
          Option.ite_none_left_eq_some, Liveness.isLatestNodeVersion_new, decide_eq_true_eq,
          Option.some.injEq, Prod.mk.injEq, getElem?_taskBySource] at kept
        obtain ⟨⟨kind, live, latest⟩, payload', parsed, taskId, isAt, standing, rfl, rfl⟩ := kept
        refine ⟨node, lastEvent_eq_some_iff.mpr ⟨index, latest, found⟩, live, kind, parsed, isAt,
          fun ⟨resolved, isAt', depends⟩ => standing ?_⟩
        rw [getElem?_taskBySource.mpr isAt', Option.any_some, ← Std.ExtTreeSet.mem_iff_contains]
        exact mem_getD_depAdj.mpr depends
  · rintro ⟨node, latestNode, live, kind, parsed, isAt, standing⟩
    obtain ⟨index, latest, found⟩ := lastEvent_eq_some_iff.mp latestNode
    refine ⟨.node node, index, found, ?_⟩
    simp only [Option.ite_none_right_eq_some, Option.bind_eq_some_iff,
      Option.ite_none_left_eq_some, Liveness.isLatestNodeVersion_new, decide_eq_true_eq,
      Option.some.injEq, Prod.mk.injEq, getElem?_taskBySource]
    refine ⟨⟨kind, live, latest⟩, payload, parsed, id, isAt, fun resolvedNow => standing ?_, rfl,
      rfl⟩
    obtain ⟨resolved, isAt', contains⟩ := (Option.any_eq_true ..).mp resolvedNow
    rw [← Std.ExtTreeSet.mem_iff_contains, mem_getD_depAdj] at contains
    exact ⟨resolved, getElem?_taskBySource.mp isAt', contains⟩

/-- The declarations of a task are collected under its ID. -/
theorem mem_unresolvedByTask {unknown : String} :
    unknown ∈ (unresolvedByTask records parsePayload).getD id ∅ ↔
      StandsAgainst records parsePayload id unknown := by
  rw [Std.ExtTreeMap.getD_eq_getD_getElem?, unresolvedByTask, mem_foldl_insertLink]
  simp only [List.mem_map, Prod.exists, Prod.mk.injEq, mem_unresolvedDeclarations]
  constructor
  · rintro ⟨_, payload, ⟨node, latest, live, kind, parsed, isAt, open_⟩, rfl, rfl⟩
    exact ⟨node, payload, latest, live, kind, parsed, isAt, rfl, open_⟩
  · rintro ⟨node, payload, latest, live, kind, parsed, isAt, rfl, open_⟩
    exact ⟨_, payload, ⟨node, latest, live, kind, parsed, isAt, open_⟩, rfl, rfl⟩

/-- A target is met when it is a live task that was completed. -/
theorem unmetTarget_eq_none_iff {target : String} :
    unmetTarget records target = none ↔
      ∃ node, LiveTask records target node ∧ taskStatus node = "closed_completed" := by
  simp only [unmetTarget, ← getElem?_liveTasks]
  cases found : (liveTasks records)[target]? with
  | none => simp
  | some node => simp

/-- Nothing is unmet when all targets are met and no declaration stands. -/
theorem unmetDependencies_eq_nil_iff {row : TaskIdentityRow} :
    unmetDependencies records (unresolvedByTask records parsePayload) row = [] ↔
      (∀ target, DependsOn records row.recordId target →
        ∃ node, LiveTask records target node ∧ taskStatus node = "closed_completed") ∧
      ∀ unknown, ¬ StandsAgainst records parsePayload row.recordId unknown := by
  rw [unmetDependencies, ← List.length_eq_zero_iff, (List.perm_insertionSort _ _).length_eq,
    List.length_eq_zero_iff, List.append_eq_nil_iff, List.filterMap_eq_nil_iff,
    List.map_eq_nil_iff, List.eq_nil_iff_forall_not_mem]
  simp only [Std.ExtTreeSet.mem_toList, mem_getD_depAdj, mem_unresolvedByTask,
    unmetTarget_eq_none_iff]

/-- The members of the cycles are the records on one. -/
theorem contains_cycleMembers :
    (cycleMembers records).contains id = true ↔ OnDependencyCycle records id := by
  rw [← Std.ExtTreeSet.mem_iff_contains, cycleMembers, mem_foldl_insert]
  simp only [List.mem_flatten, mem_dependencyCycles, Std.ExtTreeSet.not_mem_empty, false_or,
    OnDependencyCycle, and_assoc]

/-- What a live task of the slice is listed as. -/
def listing (records : List GraphRecord)
    (parsePayload : String → Option UnresolvedDependencyPayload) (task : String × NodeRecord) :
    TaskListing :=
  classifyTask records (unresolvedByTask records parsePayload) (cycleMembers records) task.1 task.2

/-- Readiness as it is computed: off every cycle, with nothing unmet. -/
theorem readyTask_iff (node : NodeRecord) : ReadyTask records parsePayload id ↔
    (cycleMembers records).contains id = false ∧
      unmetDependencies records (unresolvedByTask records parsePayload)
        (taskRow records id node) = [] := by
  rw [← Bool.not_eq_true, contains_cycleMembers, unmetDependencies_eq_nil_iff]
  exact ⟨fun ready => ⟨ready.acyclic, ready.completed, ready.resolved⟩,
    fun ⟨acyclic, completed, resolved⟩ => ⟨acyclic, completed, resolved⟩⟩

/-- A candidate is listed as ready or as blocked, by that test. -/
theorem listing_of_candidate (candidate : taskStatus node ∈ taskReadyCandidateStatuses) :
    listing records parsePayload (id, node) =
      let row := taskRow records id node
      let unmet := unmetDependencies records (unresolvedByTask records parsePayload) row
      let inCycle := (cycleMembers records).contains id
      if inCycle || !unmet.isEmpty then .blocked ⟨row, unmet, inCycle⟩ else .ready row := by
  have live : taskStatus node ∉ taskReadyTerminalStatuses ∧ taskStatus node ≠ "blocked" := by
    simp only [taskReadyCandidateStatuses, List.mem_cons, List.not_mem_nil, or_false] at candidate
    rcases candidate with status | status <;> rw [status] <;> decide
  rw [listing, classifyTask]
  simp only [taskRow, live.1, live.2, candidate, if_false, not_true_eq_false]

/-- A candidate without obstacles is ready. -/
theorem listing_ready (candidate : taskStatus node ∈ taskReadyCandidateStatuses)
    (ready : ReadyTask records parsePayload id) :
    listing records parsePayload (id, node) = .ready (taskRow records id node) := by
  obtain ⟨acyclic, unmet⟩ := (readyTask_iff node).mp ready
  rw [listing_of_candidate candidate]
  simp only [acyclic, unmet, List.isEmpty_nil, Bool.not_true, Bool.or_self, Bool.false_eq_true,
    if_false]

/-- A candidate with an obstacle is blocked. -/
theorem listing_blocked (candidate : taskStatus node ∈ taskReadyCandidateStatuses)
    (held : ¬ ReadyTask records parsePayload id) :
    ∃ row, listing records parsePayload (id, node) = .blocked row ∧ row.task.recordId = id := by
  rw [readyTask_iff node, not_and_or, Bool.not_eq_false, ← List.isEmpty_iff, Bool.not_eq_true]
    at held
  rw [listing_of_candidate candidate]
  dsimp only
  rw [if_pos (by simpa using held)]
  exact ⟨_, rfl, rfl⟩

/-- Other tasks are not listed as either. -/
theorem listing_other (other : taskStatus node ∉ taskReadyCandidateStatuses) :
    (listing records parsePayload (id, node)).readyRow = none ∧
      (listing records parsePayload (id, node)).blockedRow = none := by
  rw [listing, classifyTask]
  dsimp only
  split
  · exact ⟨rfl, rfl⟩
  split
  · exact ⟨rfl, rfl⟩
  rw [if_pos (show (taskRow records id node).status ∉ taskReadyCandidateStatuses from other)]
  exact ⟨rfl, rfl⟩

/-- The row of a ready task. -/
theorem readyRow_listing {row : TaskIdentityRow} :
    (listing records parsePayload (id, node)).readyRow = some row ↔
      row = taskRow records id node ∧ taskStatus node ∈ taskReadyCandidateStatuses ∧
        ReadyTask records parsePayload id := by
  by_cases candidate : taskStatus node ∈ taskReadyCandidateStatuses
  · by_cases ready : ReadyTask records parsePayload id
    · rw [listing_ready candidate ready, TaskListing.readyRow, Option.some.injEq, eq_comm]
      simp [candidate, ready]
    · obtain ⟨_, blocked, -⟩ := listing_blocked candidate ready
      simp [blocked, TaskListing.readyRow, ready]
  · simp [(listing_other candidate).1, candidate]

/-- The rows of blocked tasks. -/
theorem blockedRow_listing {other : String} :
    (∃ row, (listing records parsePayload (id, node)).blockedRow = some row ∧
        row.task.recordId = other) ↔
      other = id ∧ taskStatus node ∈ taskReadyCandidateStatuses ∧
        ¬ ReadyTask records parsePayload id := by
  by_cases candidate : taskStatus node ∈ taskReadyCandidateStatuses
  · by_cases ready : ReadyTask records parsePayload id
    · rw [listing_ready candidate ready]
      simp [TaskListing.blockedRow, ready]
    · obtain ⟨row, blocked, named⟩ := listing_blocked candidate ready
      simp [blocked, TaskListing.blockedRow, ready, candidate, named, eq_comm]
  · simp [(listing_other candidate).2, candidate]

/-- The listings of the live tasks. -/
def taskListings (records : List GraphRecord)
    (parsePayload : String → Option UnresolvedDependencyPayload) : List TaskListing :=
  (liveTasks records).toList.map (listing records parsePayload)

/-- The ready rows are the candidates that are ready. -/
theorem mem_readyRows :
    id ∈ ((taskListings records parsePayload).filterMap TaskListing.readyRow).map
        TaskIdentityRow.recordId ↔
      CandidateTask records id ∧ ReadyTask records parsePayload id := by
  simp only [taskListings, List.mem_map, List.mem_filterMap, Prod.exists,
    Std.ExtTreeMap.mem_toList_iff_getElem?_eq_some, getElem?_liveTasks]
  constructor
  · rintro ⟨row, ⟨_, ⟨id', node, task, rfl⟩, listed⟩, rfl⟩
    obtain ⟨rfl, candidate, ready⟩ := readyRow_listing.mp listed
    exact ⟨⟨node, task, candidate⟩, ready⟩
  · rintro ⟨⟨node, task, candidate⟩, ready⟩
    exact ⟨_, ⟨_, ⟨id, node, task, rfl⟩, readyRow_listing.mpr ⟨rfl, candidate, ready⟩⟩, rfl⟩

/-- The blocked rows are the other candidates. -/
theorem mem_blockedRows :
    id ∈ ((taskListings records parsePayload).filterMap TaskListing.blockedRow).map
        (fun row => row.task.recordId) ↔
      CandidateTask records id ∧ ¬ ReadyTask records parsePayload id := by
  simp only [taskListings, List.mem_map, List.mem_filterMap, Prod.exists,
    Std.ExtTreeMap.mem_toList_iff_getElem?_eq_some, getElem?_liveTasks]
  constructor
  · rintro ⟨row, ⟨_, ⟨id', node, task, rfl⟩, listed⟩, named⟩
    obtain ⟨rfl, candidate, held⟩ := blockedRow_listing.mp ⟨row, listed, named⟩
    exact ⟨⟨node, task, candidate⟩, held⟩
  · rintro ⟨⟨node, task, candidate⟩, held⟩
    obtain ⟨row, listed, named⟩ := blockedRow_listing.mpr ⟨rfl, candidate, held⟩
    exact ⟨row, ⟨_, ⟨id, node, task, rfl⟩, listed⟩, named⟩

/-- No task has two rows. -/
theorem once_rows :
    (((taskListings records parsePayload).filterMap TaskListing.readyRow).map
        TaskIdentityRow.recordId ++
      ((taskListings records parsePayload).filterMap TaskListing.blockedRow).map
        fun row => row.task.recordId).Nodup := by
  have keys : (liveTasks records).toList.Pairwise fun task other => task.1 ≠ other.1 :=
    Std.ExtTreeMap.ordered_keys_toList.imp fun less same => by
      rw [same, (Std.ReflCmp.compare_self : byteOrder _ _ = .eq)] at less
      cases less
  refine List.nodup_append.mpr ⟨?_, ?_, fun id ready other blocked same => ?_⟩
  · rw [taskListings, List.filterMap_map, List.Nodup, List.pairwise_map]
    refine List.Pairwise.filterMap _ (fun task other apart row listed row' listed' same => ?_) keys
    rw [(readyRow_listing.mp listed).1, (readyRow_listing.mp listed').1] at same
    exact apart same
  · rw [taskListings, List.filterMap_map, List.Nodup, List.pairwise_map]
    refine List.Pairwise.filterMap _ (fun task other apart row listed row' listed' same => ?_) keys
    exact apart ((blockedRow_listing.mp ⟨row, listed, rfl⟩).1.symm.trans
      (same.trans (blockedRow_listing.mp ⟨row', listed', rfl⟩).1))
  · exact (mem_blockedRows.mp (same ▸ blocked)).2 (mem_readyRows.mp ready).2

/-- The diagnostics on unresolved declarations carry their own code. -/
theorem code_of_mem_unresolvedDiagnostics {diagnostic : TaskReadyDiagnostic}
    (member : diagnostic ∈ unresolvedDiagnostics records parsePayload) :
    diagnostic.code = .unresolvedDependency := by
  rw [unresolvedDiagnostics, List.mem_insertionSort, List.mem_map] at member
  obtain ⟨declaration, -, rfl⟩ := member
  rfl

/-- The fields of a report. -/
theorem taskReadyReport_ready {report : TaskReadyReport}
    (reported : taskReadyReport records parsePayload = .ready report) :
    report.ready = (taskListings records parsePayload).filterMap TaskListing.readyRow ∧
      report.blocked = (taskListings records parsePayload).filterMap TaskListing.blockedRow ∧
      report.diagnostics.Perm ((dependencyCycles records).map cycleDiagnostic ++
        unresolvedDiagnostics records parsePayload) := by
  rw [taskReadyReport] at reported
  dsimp only at reported
  split at reported
  · cases reported
  · cases reported
    exact ⟨rfl, rfl, List.perm_insertionSort _ _⟩

/-- The diagnosed cycles are the cycles of the graph. -/
theorem cycles_perm {report : TaskReadyReport}
    (reported : taskReadyReport records parsePayload = .ready report) :
    report.cycles.Perm (dependencyCycles records) := by
  have sorted := (taskReadyReport_ready reported).2.2
  refine ((sorted.filter _).map _).trans (.of_eq ?_)
  have cycles : ((dependencyCycles records).map cycleDiagnostic).filter
      (fun diagnostic => diagnostic.code = .dependencyCycle) =
        (dependencyCycles records).map cycleDiagnostic := by
    refine List.filter_eq_self.mpr fun diagnostic member => ?_
    obtain ⟨members, -, rfl⟩ := List.mem_map.mp member
    rfl
  have others : (unresolvedDiagnostics records parsePayload).filter
      (fun diagnostic => diagnostic.code = .dependencyCycle) = [] := by
    refine List.filter_eq_nil_iff.mpr fun diagnostic member => ?_
    simp [code_of_mem_unresolvedDiagnostics member]
  have named : TaskReadyDiagnostic.members ∘ cycleDiagnostic = id := rfl
  rw [List.filter_append, cycles, others, List.append_nil, List.map_map, named, List.map_id]

/-- There is a report exactly if there is a live task. The search for strongly connected
components is exact, the cycles of the report are the components that are cycles, and each
candidate is in exactly one of the ready and the blocked rows. -/
theorem taskReady_law (records : List GraphRecord)
    (parsePayload : String → Option UnresolvedDependencyPayload) :
    TaskReadyLaw records parsePayload where
  scc := sccExact_tarjanScc
  exact report reported := by
    obtain ⟨ready, blocked, -⟩ := taskReadyReport_ready reported
    have perm := cycles_perm reported
    exact
      { cycles := fun members => perm.mem_iff.trans mem_dependencyCycles
        cyclesOnce := perm.nodup_iff.mpr nodup_dependencyCycles
        ready := fun id => ready ▸ mem_readyRows
        blocked := fun id => blocked ▸ mem_blockedRows
        once := ready ▸ blocked ▸ once_rows }
  none := by
    have noTask : (liveTasks records).isEmpty = true ↔ ¬ ∃ id node, LiveTask records id node := by
      rw [Std.ExtTreeMap.isEmpty_iff, Std.ExtTreeMap.eq_empty_iff_forall_not_mem]
      simp only [Std.ExtTreeMap.mem_iff_contains, contains_liveTasks, not_exists]
    rw [← noTask, taskReadyReport]
    dsimp only
    split <;> simp [*]

end Report

end Egregore
