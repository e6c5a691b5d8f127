import Egregore.Base.Tarjan
import Egregore.Base.Text
import Egregore.Query.Liveness
import Egregore.Query.TxDelta

/-!
# Ready-to-dispatch tasks

`query/task_ready.rs`: the open and in-progress tasks of a slice, ready or blocked by their
declared dependencies, by declarations that name no task, or by a dependency cycle.
-/

namespace Egregore

open Base

/-- `TASK_READY_CANDIDATE_STATUSES`. -/
def taskReadyCandidateStatuses : List String := ["open", "in_progress"]

/-- `TASK_READY_TERMINAL_STATUSES`. -/
def taskReadyTerminalStatuses : List String := ["closed_completed", "closed_dropped"]

/-- `UNRESOLVED_DEPENDENCY_PREFIX`. -/
def unresolvedDependencyPrefix : String := "[unresolved_dependency] "

/-- `UnresolvedDependencyPayload`. -/
structure UnresolvedDependencyPayload where
  taskLocalId : String
  file : String
  line : Nat
  unknownDep : String
  deriving DecidableEq, Repr

/-- `TaskIdentityRow`. -/
structure TaskIdentityRow where
  recordId : String
  title : Option String
  status : String
  sourceHandle : Option String
  deriving DecidableEq, Repr

/-- `UnmetResolution`. -/
inductive UnmetResolution where
  | resolved | unresolved | targetAbsent
  deriving DecidableEq, Repr

/-- `UnmetDependency`. -/
structure UnmetDependency where
  recordId : Option String
  declaredLocalId : Option String
  title : Option String
  status : Option String
  sourceHandle : Option String
  resolution : UnmetResolution
  deriving DecidableEq, Repr

/-- `BlockedTaskRow`. -/
structure BlockedTaskRow where
  task : TaskIdentityRow
  unmetDependencies : List UnmetDependency
  inCycle : Bool
  deriving DecidableEq, Repr

/-- `TaskReadyDiagnosticCode`. -/
inductive TaskReadyDiagnosticCode where
  | dependencyCycle | unresolvedDependency
  deriving DecidableEq, Repr

/-- The discriminant of a code. -/
def TaskReadyDiagnosticCode.rank : TaskReadyDiagnosticCode → Nat
  | .dependencyCycle => 0
  | .unresolvedDependency => 1

/-- `TaskReadyDiagnostic`. -/
structure TaskReadyDiagnostic where
  code : TaskReadyDiagnosticCode
  message : String
  members : List String
  taskRecordId : Option String
  unknownDep : Option String
  deriving DecidableEq, Repr

/-- `TaskReadyCounts`. -/
structure TaskReadyCounts where
  tasks : Nat
  dependencyEdges : Nat
  ready : Nat
  blocked : Nat
  authorBlocked : Nat
  diagnostics : Nat
  deriving DecidableEq, Repr

/-- `TaskReadyReport`. -/
structure TaskReadyReport where
  counts : TaskReadyCounts
  ready : List TaskIdentityRow
  blocked : List BlockedTaskRow
  authorBlocked : List TaskIdentityRow
  diagnostics : List TaskReadyDiagnostic
  hasCycle : Bool
  deriving DecidableEq, Repr

/-- `TaskReadyOutcome`. -/
inductive TaskReadyOutcome where
  | ready (report : TaskReadyReport)
  | noProjectData
  deriving DecidableEq, Repr

/-- `task_ready_exit_code`. -/
def taskReadyExitCode : TaskReadyOutcome → Int
  | .noProjectData => 2
  | .ready report => if report.hasCycle then 3 else 0

/-- The order of the diagnostics. -/
def diagnosticOrder : TaskReadyDiagnostic → TaskReadyDiagnostic → Ordering :=
  compareLex (compareOn fun diagnostic => diagnostic.code.rank)
    (compareLex (fun first second => List.compareLex byteOrder first.members second.members)
      (compareLex (fun first second =>
          optionOrder byteOrder first.taskRecordId second.taskRecordId)
        fun first second => optionOrder byteOrder first.unknownDep second.unknownDep))

/-- What an unmet dependency is sorted by. -/
def UnmetDependency.key (unmet : UnmetDependency) : Nat × String :=
  match unmet.resolution with
  | .resolved => (0, unmet.recordId.getD "")
  | .unresolved => (1, unmet.declaredLocalId.getD "")
  | .targetAbsent => (2, unmet.recordId.getD "")

/-- The order of the unmet dependencies of a task. -/
def unmetOrder : UnmetDependency → UnmetDependency → Ordering :=
  compareLex (compareOn fun unmet => unmet.key.1)
    fun first second => byteOrder first.key.2 second.key.2

/-- The author-written status of a task. -/
def taskStatus (node : NodeRecord) : String := (node.field "status").getD "unknown"

section Tasks

variable (records : List GraphRecord)

/-- The live tasks, each in its last version. -/
def liveTasks : StrMap NodeRecord :=
  let liveness := Liveness.new records
  records.foldl (insertEntry fun record =>
    match record with
    | .node node =>
        if node.kind = .task ∧ liveness.deleted node.id = false then some (node.id, node) else none
    | _ => none) ∅

/-- The source and the target of each current `DEPENDS_ON` edge of a live task. -/
def liveDependencies : List (String × String) :=
  let liveness := Liveness.new records
  let tasks := liveTasks records
  records.zipIdx.filterMap fun entry =>
    match entry.1 with
    | .edge edge =>
        if edge.label = .dependsOn ∧ liveness.deleted edge.id = false ∧
            liveness.isLatestEdgeVersion edge.id entry.2 ∧ tasks.contains edge.source then
          some (edge.source, edge.target)
        else none
    | _ => none

/-- The dependency graph: every live task and every target has an entry. -/
def depAdj : StrMap StrSet :=
  let tasks : StrMap StrSet := (liveTasks records).keys.foldl (fun adj id => adj.insert id ∅) ∅
  let adj := (liveDependencies records).foldl insertLink tasks
  let referenced := adj.toList.flatMap fun entry => entry.2.toList
  referenced.foldl (fun adj target => adj.insertIfNew target ∅) adj

/-- The current external links. -/
def externalLinks : StrMap NodeRecord :=
  let liveness := Liveness.new records
  records.zipIdx.foldl (insertEntry fun entry =>
    match entry.1 with
    | .node node =>
        if node.kind = .externalLink ∧ liveness.deleted node.id = false ∧
            liveness.isLatestNodeVersion node.id entry.2 then
          some (node.id, node)
        else none
    | _ => none) ∅

/-- The link of each task, from its current `EXTERNAL_HANDLE` edges; a later one overrides. -/
def handleTargets : StrMap String :=
  let liveness := Liveness.new records
  records.zipIdx.foldl (insertEntry fun entry =>
    match entry.1 with
    | .edge edge =>
        if edge.label = .externalHandle ∧ liveness.deleted edge.id = false ∧
            liveness.isLatestEdgeVersion edge.id entry.2 then
          some (edge.source, edge.target)
        else none
    | _ => none) ∅

/-- `resolve_handle`. -/
def resolveHandle (node : NodeRecord) : Option String :=
  let linkId := (node.field "source_external_link_id").or (handleTargets records)[node.id]?
  let linked := (linkId.bind fun linkId => (externalLinks records)[linkId]?).bind fun link =>
    match link.field "system_native_id", link.field "url" with
    | some native, some url => some (native ++ " <" ++ url ++ ">")
    | some native, none => some native
    | none, some url => some url
    | none, none => none
  linked.or (node.field "source_handle")

/-- The file and the local ID of a task. -/
def taskSource (task : String × NodeRecord) : Option ((String × String) × String) :=
  match task.2.repoRelativePath, task.2.name with
  | some path, some localId => some ((path, localId), task.1)
  | _, _ => none

/-- The live task of each file and local ID; of several the last ID. -/
def taskBySource : Std.ExtTreeMap (String × String) String pairOrder :=
  (liveTasks records).toList.foldl (insertEntry taskSource) ∅

section Unresolved

variable (parsePayload : String → Option UnresolvedDependencyPayload)

/-- The payload of an importer diagnostic. -/
def unresolvedPayload (node : NodeRecord) : Option UnresolvedDependencyPayload :=
  (stripPrefix unresolvedDependencyPrefix.toList node.summary.toList).bind fun json =>
    parsePayload (String.ofList json)

/-- The current importer diagnostics, each with its task, without those that are resolved by
now. -/
def unresolvedDeclarations : List (String × UnresolvedDependencyPayload) :=
  let liveness := Liveness.new records
  let sources := taskBySource records
  let adj := depAdj records
  records.zipIdx.filterMap fun entry =>
    match entry.1 with
    | .node node =>
        if node.kind = .diagnostic ∧ liveness.deleted node.id = false ∧
            liveness.isLatestNodeVersion node.id entry.2 then
          (unresolvedPayload parsePayload node).bind fun payload =>
            sources[(payload.file, payload.taskLocalId)]?.bind fun taskId =>
              let resolvedNow := sources[(payload.file, payload.unknownDep)]?.any fun dep =>
                (adj.getD taskId ∅).contains dep
              if resolvedNow then none else some (taskId, payload)
        else none
    | _ => none

/-- The diagnostic of an unresolved declaration. -/
def unresolvedDiagnostic (taskId : String) (payload : UnresolvedDependencyPayload) :
    TaskReadyDiagnostic where
  code := .unresolvedDependency
  message := "task '" ++ payload.taskLocalId ++ "' depends on unknown task '" ++
    payload.unknownDep ++ "' (" ++ payload.file ++ " line " ++ toString payload.line ++ ")"
  members := []
  taskRecordId := some taskId
  unknownDep := some payload.unknownDep

/-- The unknown names of the declarations, by task. -/
def unresolvedByTask : StrMap StrSet :=
  ((unresolvedDeclarations records parsePayload).map fun declaration =>
    (declaration.1, declaration.2.unknownDep)).foldl insertLink ∅

/-- The diagnostics of the declarations, sorted. -/
def unresolvedDiagnostics : List TaskReadyDiagnostic :=
  ((unresolvedDeclarations records parsePayload).map fun declaration =>
    unresolvedDiagnostic declaration.1 declaration.2).insertionSort
      fun first second => compareLex (fun first second =>
        optionOrder byteOrder first.taskRecordId second.taskRecordId)
          (fun first second => optionOrder byteOrder first.unknownDep second.unknownDep)
            first second ≠ .gt

end Unresolved

/-- `tarjan_scc`. -/
def tarjanScc (adj : StrMap StrSet) : List (List String) :=
  Tarjan.components byteOrder (fun node => (adj.getD node ∅).toList) adj.keys

/-- The components with several members or a self edge, sorted. -/
def dependencyCycles : List (List String) :=
  let adj := depAdj records
  ((tarjanScc adj).filter fun scc =>
    scc.length > 1 || scc.head?.any fun only => (adj.getD only ∅).contains only).insertionSort
      fun first second => List.compareLex byteOrder first second ≠ .gt

/-- The members of the cycles. -/
def cycleMembers : StrSet := (dependencyCycles records).flatten.foldl (·.insert ·) ∅

/-- The diagnostic of a cycle. -/
def cycleDiagnostic (members : List String) : TaskReadyDiagnostic where
  code := .dependencyCycle
  message := "dependency cycle among tasks: " ++ String.intercalate ", " members
  members := members
  taskRecordId := none
  unknownDep := none

/-- The identity row of a task. -/
def taskRow (id : String) (node : NodeRecord) : TaskIdentityRow where
  recordId := id
  title := node.field "title"
  status := taskStatus node
  sourceHandle := resolveHandle records node

/-- A dependency on a target, unless it is a completed task. -/
def unmetTarget (target : String) : Option UnmetDependency :=
  match (liveTasks records)[target]? with
  | some node =>
      if taskStatus node = "closed_completed" then none
      else some
        { recordId := some target
          declaredLocalId := none
          title := node.field "title"
          status := some (taskStatus node)
          sourceHandle := resolveHandle records node
          resolution := .resolved }
  | none => some ⟨some target, none, none, none, none, .targetAbsent⟩

/-- What keeps a task from being ready, apart from cycles. -/
def unmetDependencies (unresolved : StrMap StrSet) (row : TaskIdentityRow) :
    List UnmetDependency :=
  let resolved := ((depAdj records).getD row.recordId ∅).toList.filterMap (unmetTarget records)
  let unknown : List UnmetDependency := (unresolved.getD row.recordId ∅).toList.map fun unknown =>
    ⟨none, some unknown, none, none, row.sourceHandle, .unresolved⟩
  (resolved ++ unknown).insertionSort fun first second => unmetOrder first second ≠ .gt

/-- What a live task is listed as. -/
inductive TaskListing where
  | ready (row : TaskIdentityRow)
  | blocked (row : BlockedTaskRow)
  | authorBlocked (row : TaskIdentityRow)
  | unlisted

def TaskListing.readyRow : TaskListing → Option TaskIdentityRow
  | .ready row => some row
  | _ => none

def TaskListing.blockedRow : TaskListing → Option BlockedTaskRow
  | .blocked row => some row
  | _ => none

def TaskListing.authorBlockedRow : TaskListing → Option TaskIdentityRow
  | .authorBlocked row => some row
  | _ => none

/-- One live task of the classification. -/
def classifyTask (unresolved : StrMap StrSet) (cycleMembers : StrSet) (id : String)
    (node : NodeRecord) : TaskListing :=
  let row := taskRow records id node
  if row.status ∈ taskReadyTerminalStatuses then .unlisted
  else if row.status = "blocked" then .authorBlocked row
  else if row.status ∉ taskReadyCandidateStatuses then .unlisted
  else
    let unmet := unmetDependencies records unresolved row
    let inCycle := cycleMembers.contains id
    if inCycle || !unmet.isEmpty then .blocked ⟨row, unmet, inCycle⟩ else .ready row

/-- `task_ready_report`. -/
def taskReadyReport (parsePayload : String → Option UnresolvedDependencyPayload) :
    TaskReadyOutcome :=
  let tasks := liveTasks records
  if tasks.isEmpty then .noProjectData
  else
    let unresolved := unresolvedByTask records parsePayload
    let cycles := dependencyCycles records
    let cycleMembers := cycleMembers records
    let diagnostics :=
      (cycles.map cycleDiagnostic ++ unresolvedDiagnostics records parsePayload).insertionSort
        fun first second => diagnosticOrder first second ≠ .gt
    let listings := tasks.toList.map fun task =>
      classifyTask records unresolved cycleMembers task.1 task.2
    let ready := listings.filterMap TaskListing.readyRow
    let blocked := listings.filterMap TaskListing.blockedRow
    let authorBlocked := listings.filterMap TaskListing.authorBlockedRow
    .ready
      { counts :=
          { tasks := tasks.size
            dependencyEdges := (liveDependencies records).length
            ready := ready.length
            blocked := blocked.length
            authorBlocked := authorBlocked.length
            diagnostics := diagnostics.length }
        ready := ready
        blocked := blocked
        authorBlocked := authorBlocked
        diagnostics := diagnostics
        hasCycle := !cycles.isEmpty }

end Tasks

end Egregore
