import Egregore.Languages.CallTargets
import Egregore.SchemaVersion

/-!
# Calls across files

`cross_file_call_records` of `languages/cross_file.rs`: the `CALLS` edges of the call sites of a
repository, and the markers of those that bind nothing.
-/

namespace Egregore

open Base

/-- What the pass takes from its libraries and its caller. -/
structure CallEnv where
  stableId : List String → String
  /-- `char::is_uppercase`. -/
  isUppercase : Char → Bool
  /-- The serialized form of spans. -/
  spanText : CallSpan → String
  spansText : List CallSpan → String
  repositoryId : String

/-- The order of the statuses, the strongest first. -/
def CallResolution.rank : CallResolution → Nat
  | .resolved => 0
  | .ambiguous => 1
  | .unresolved => 2
  | .unresolvedDispatch => 3

/-- Status, summary and call sites of an edge. -/
abbrev CallEdges :=
  Std.ExtTreeMap (String × String) (CallResolution × String × List CallSpan) pairOrder

/-- What the pass collects: edges by caller and target, and, for the calls that bind nothing, the
markers by file and name and the callers of each. -/
structure CallRecords where
  edges : CallEdges := ∅
  diagnostics : Std.ExtTreeMap (String × String) CallSpan pairOrder := ∅
  diagnosticEdges : Std.ExtTreeMap (String × String × String) String tripleOrder := ∅
  dispatchDiagnostics : Std.ExtTreeMap (String × String × String) CallSpan tripleOrder := ∅
  dispatchDiagnosticEdges : Std.ExtTreeMap (String × String × String × String) String quadOrder := ∅

section Collect

/-- Several call sites of one pair: the strongest status, and the sites that are resolved. -/
def recordPair (source target summary : String) (resolution : CallResolution) (span : CallSpan)
    (edges : CallEdges) : CallEdges :=
  edges.alter (source, target) fun entry =>
    let (kept, text, spans) := entry.getD (resolution, summary, [])
    let (kept, text) :=
      if resolution.rank < kept.rank then (resolution, summary) else (kept, text)
    some (kept, text,
      if resolution = .resolved ∧ span ∉ spans then spans ++ [span] else spans)

/-- The status of some candidates, and how a summary puts it. -/
def candidateStatus (count : Nat) : CallResolution :=
  if count = 1 then .resolved else .ambiguous

/-- `record_block_local_edge`. -/
def recordBlockLocalEdge (call : CallSiteFact) (count : Nat) (edges : CallEdges)
    (definition : BlockLocalDefinitionFact) : CallEdges :=
  if definition.id = call.callerId then edges
  else
    let status :=
      if count = 1 then " (block-local, resolved)"
      else " (block-local, ambiguous: " ++ toString count ++ " in-scope candidates)"
    recordPair call.callerId definition.id
      (call.callerName ++ " calls " ++ definition.qualifiedName ++ status)
      (candidateStatus count) call.span edges

/-- `record_candidate_edge`: none to a definition of the caller's file, unless those are allowed,
and none to the caller itself. -/
def recordCandidateEdge (path : String) (call : CallSiteFact) (count : Nat)
    (allowSameFile : Bool) (edges : CallEdges) (candidate : DefinitionFact) : CallEdges :=
  if !allowSameFile && candidate.repoRelativePath = path then edges
  else if candidate.id = call.callerId then edges
  else
    let status :=
      if count = 1 then " (cross-file, resolved)"
      else " (cross-file, ambiguous: " ++ toString count ++ " in-repo candidates)"
    recordPair call.callerId candidate.id
      (call.callerName ++ " calls " ++ candidate.qualifiedName ++ status)
      (candidateStatus count) call.span edges

/-- `record_unresolved`: not of a method, nor of what looks like a constructor. -/
def recordUnresolved (env : CallEnv) (path : String) (call : CallSiteFact) (simpleName : String)
    (records : CallRecords) : CallRecords :=
  if call.callKind = .method ∨ call.callKind = .selfMethod then records
  else if simpleName.toList.head?.any env.isUppercase then records
  else
    { records with
      diagnostics := records.diagnostics.insertIfNew (path, call.calleeDisplay) call.span
      diagnosticEdges :=
        records.diagnosticEdges.insertIfNew (path, call.calleeDisplay, call.callerId)
          call.callerName }

/-- `record_unresolved_dispatch`. -/
def recordUnresolvedDispatch (path : String) (call : CallSiteFact) (traitPath : String)
    (records : CallRecords) : CallRecords :=
  let method := call.calleeSegments.getLast?.getD ""
  { records with
    dispatchDiagnostics :=
      records.dispatchDiagnostics.insertIfNew (path, traitPath, method) call.span
    dispatchDiagnosticEdges :=
      records.dispatchDiagnosticEdges.insertIfNew (path, traitPath, method, call.callerId)
        call.callerName }

/-- Whether `dispatch_suppressed_names` has a name for a caller. -/
def dispatchSuppressed (facts : FileFacts) (callerId simpleName : String) : Bool :=
  facts.callSites.any fun call =>
    call.dispatchTrait.isSome ∧ call.callerId = callerId ∧
      call.calleeSegments.getLast? = some simpleName

/-- What a call site records, once its candidates are known. -/
def recordCandidates (env : CallEnv) (path : String) (facts : FileFacts) (call : CallSiteFact)
    (simpleName : String) (candidates : List DefinitionFact) (records : CallRecords) :
    CallRecords :=
  if candidates = [] then
    match call.dispatchTrait with
    | some traitPath => recordUnresolvedDispatch path call traitPath records
    | none => recordUnresolved env path call simpleName records
  else
    let emitSameFile :=
      call.dispatchTrait.isSome || dispatchSuppressed facts call.callerId simpleName
    { records with
      edges :=
        candidates.foldl (recordCandidateEdge path call candidates.length emitSameFile)
          records.edges }

/-- One call site. A definition local to the block of the call shadows the others. -/
def recordCall (env : CallEnv) (index : DefinitionIndex) (path callerCrateRoot : String)
    (facts : FileFacts) (records : CallRecords) (call : CallSiteFact) : CallRecords :=
  match call.calleeSegments.getLast? with
  | none => records
  | some simpleName =>
      let blockLocals := index.blockLocalCandidates call simpleName
      if blockLocals ≠ [] then
        { records with
          edges :=
            blockLocals.foldl (recordBlockLocalEdge call blockLocals.length) records.edges }
      else
        recordCandidates env path facts call simpleName
          (index.candidates call simpleName callerCrateRoot) records

variable (factsByFile : StrMap FileFacts)

/-- The facts after the reassignment of the helpers. -/
def reassignedFacts : StrMap FileFacts :=
  applyCrateRootRemap factsByFile (reassignAuxHelperCrateRoots factsByFile)

/-- The index of the pass. -/
def callIndex : DefinitionIndex :=
  DefinitionIndex.build (reassignedFacts factsByFile) (reassignAuxHelperCrateRoots factsByFile)

/-- The root of the callers in a file. -/
def callerCrateRoot (path : String) : String :=
  reassignedRoot (reassignAuxHelperCrateRoots factsByFile) path

/-- The loop over the call sites. -/
def collectCalls (env : CallEnv) : CallRecords :=
  (reassignedFacts factsByFile).toList.foldl (fun records entry =>
    entry.2.callSites.foldl (recordCall env (callIndex factsByFile) entry.1
      (callerCrateRoot factsByFile entry.1) entry.2) records) {}

end Collect

section Emit

variable (env : CallEnv)

/-- A `CALLS` edge. -/
def callEdge (source target summary : String) (resolution : CallResolution)
    (rest : List (String × String)) : EdgeRecord where
  id := env.stableId ["edge", EdgeLabel.calls.asStr, source, target]
  schemaVersion := schemaVersion
  label := .calls
  source := source
  target := target
  resolution := some resolution
  summary := summary
  rest := rest

/-- `emit_call_edge_records`, of one pair. -/
def emitCallEdge (entry : (String × String) × CallResolution × String × List CallSpan) :
    EdgeRecord :=
  let ((source, target), resolution, summary, spans) := entry
  callEdge env source target summary resolution
    (if resolution = .resolved then
      ("confidence", "1.0") ::
        if spans = [] then [] else [("call_site_spans", env.spansText spans)]
    else [])

/-- `unresolved_call_diagnostic_id`. -/
def unresolvedCallDiagnosticId (path display : String) : String :=
  env.stableId ["node", "diagnostic", env.repositoryId, path, "unresolved-call", display]

/-- `unresolved_dispatch_diagnostic_id`. -/
def unresolvedDispatchDiagnosticId (path traitPath method : String) : String :=
  env.stableId
    ["node", "diagnostic", env.repositoryId, path, "unresolved-dispatch", traitPath, method]

/-- A marker of a call. -/
def callDiagnostic (id path name summary : String) (span : CallSpan) : NodeRecord where
  id := id
  kind := .diagnostic
  schemaVersion := schemaVersion
  repoRelativePath := some path
  name := some name
  language := some "rust"
  summary := summary
  rest := [("span", env.spanText span)]

/-- `unresolved_call_diagnostic`. -/
def unresolvedCallDiagnostic (entry : (String × String) × CallSpan) : NodeRecord :=
  let ((path, display), span) := entry
  callDiagnostic env (unresolvedCallDiagnosticId env path display) path display
    ("unresolved call target " ++ display ++ " (no in-repo definition)") span

/-- `unresolved_dispatch_diagnostic`. -/
def unresolvedDispatchDiagnostic (entry : (String × String × String) × CallSpan) : NodeRecord :=
  let ((path, traitPath, method), span) := entry
  let display := traitPath ++ "::" ++ method
  callDiagnostic env (unresolvedDispatchDiagnosticId env path traitPath method) path
    ("unresolved_dispatch: " ++ display)
    ("unresolved trait-dispatch target " ++ display ++ " (no in-crate implementor method)") span

/-- The edge of a caller to the marker of its call. -/
def unresolvedCallEdge (entry : (String × String × String) × String) : EdgeRecord :=
  let ((path, display, callerId), callerName) := entry
  callEdge env callerId (unresolvedCallDiagnosticId env path display)
    (callerName ++ " calls " ++ display ++ " (cross-file, unresolved)") .unresolved []

/-- The edge of a caller to the marker of its dispatch. -/
def unresolvedDispatchEdge (entry : (String × String × String × String) × String) : EdgeRecord :=
  let ((path, traitPath, method, callerId), callerName) := entry
  callEdge env callerId (unresolvedDispatchDiagnosticId env path traitPath method)
    (callerName ++ " calls " ++ traitPath ++ "::" ++ method ++
      " (cross-file, unresolved_dispatch)") .unresolvedDispatch []

/-- `emit_call_edge_records` and `emit_unresolved_records`. -/
def CallRecords.emit (records : CallRecords) : List GraphRecord :=
  (records.edges.toList.map fun entry => .edge (emitCallEdge env entry)) ++
  (records.diagnostics.toList.map fun entry => .node (unresolvedCallDiagnostic env entry)) ++
  (records.dispatchDiagnostics.toList.map fun entry =>
    .node (unresolvedDispatchDiagnostic env entry)) ++
  (records.diagnosticEdges.toList.map fun entry => .edge (unresolvedCallEdge env entry)) ++
  (records.dispatchDiagnosticEdges.toList.map fun entry =>
    .edge (unresolvedDispatchEdge env entry))

/-- `cross_file_call_records`, before it appends the records of constructions and routes. -/
def crossFileCallRecords (factsByFile : StrMap FileFacts) : List GraphRecord :=
  (collectCalls factsByFile env).emit env

end Emit

end Egregore
