import Egregore.Base.Tally
import Egregore.Languages.ImplTargets
import Egregore.Query.Cycles
import Egregore.Query.Repo

/-!
# Dependency cycles of files

`query/cycles.rs`: the graph of the files of a slice, with an edge for each resolved call and for
each import that names one file, and the answer of `dependency_cycles` about it. A slice is not
answered, as the code panics there, if an import names a file that has no `File` node.
-/

namespace Egregore.FileCycles

open Base

/-- `MAX_DEPENDENCY_CYCLES`. -/
def maxDependencyCycles : Nat := 100

/-- `MAX_CYCLE_EVIDENCE_PER_EDGE`. -/
def maxCycleEvidencePerEdge : Nat := 8

/-- `FileKey`: the repository of a file, and its path. -/
abbrev FileKey := String × String

/-- The order of the vertices: by path, then by repository. -/
def vertexOrder : FileKey → FileKey → Ordering :=
  compareLex (compareOn fun key => asBytes key.2) (compareOn fun key => asBytes key.1)

/-- `CycleEvidence`. -/
structure CycleEvidence where
  relation : String
  recordId : String
  resolution : Option CallResolution
  deriving DecidableEq, Repr

/-- `CycleEdge`. -/
structure CycleEdge where
  source : String
  target : String
  relations : List String
  evidence : List CycleEvidence
  evidenceTotal : Nat
  deriving DecidableEq, Repr

/-- `CycleMember`. -/
structure CycleMember where
  recordId : String
  repoRelativePath : String
  deriving DecidableEq, Repr

/-- `DependencyCycle`. -/
structure DependencyCycle where
  members : List CycleMember
  edges : List CycleEdge
  deriving DecidableEq, Repr

/-- `DependencyCycleCounts`. -/
structure DependencyCycleCounts where
  files : Nat
  dependencyEdges : Nat
  callsResolved : Nat
  callsAmbiguousExcluded : Nat
  callsUnresolvedExcluded : Nat
  callsUnlabeledExcluded : Nat
  importsResolved : Nat
  importsAmbiguousExcluded : Nat
  importsExternal : Nat
  importsNonRustExcluded : Nat
  deriving DecidableEq, Repr

/-- `DependencyCycleDiagnostic`. -/
structure DependencyCycleDiagnostic where
  code : String
  recordId : Option String
  detail : String
  deriving DecidableEq, Repr

/-- `DependencyCycles`. -/
structure DependencyCycles where
  cycles : List DependencyCycle
  cyclesTotal : Nat
  counts : DependencyCycleCounts
  diagnostics : List DependencyCycleDiagnostic
  truncated : Bool
  deriving DecidableEq, Repr

/-- The order of the edges: by source, then by target. -/
def edgeOrder (edge other : FileKey × FileKey) : Ordering :=
  quadOrder (edge.1.1, edge.1.2, edge.2.1, edge.2.2) (other.1.1, other.1.2, other.2.1, other.2.2)

instance : Std.TransCmp edgeOrder where
  eq_swap := (inferInstance : Std.TransCmp quadOrder).eq_swap
  isLE_trans := (inferInstance : Std.TransCmp quadOrder).isLE_trans

instance : Std.LawfulEqCmp edgeOrder where
  compare_self := (inferInstance : Std.LawfulEqCmp quadOrder).compare_self
  eq_of_compare {edge other} same := by
    have parts := (inferInstance : Std.LawfulEqCmp quadOrder).eq_of_compare same
    simp only [Prod.mk.injEq] at parts
    exact Prod.ext (Prod.ext parts.1 parts.2.1) (Prod.ext parts.2.2.1 parts.2.2.2)

/-! ## Imported names -/

/-- `import_item_name`. -/
def importItemName (item : List Char) : Option String :=
  let base := trim ((splitOnce " as ".toList (trim item)).elim (trim item) Prod.fst)
  let segment := trim (leafSegment (String.ofList base)).toList
  if segment = [] ∨ segment = "*".toList ∨ segment = "self".toList then none
  else some (String.ofList segment)

/-- `imported_symbol_names`. -/
def importedSymbolNames (importPath : String) : List String :=
  let trimmed := trim importPath.toList
  match splitOnce "\x7b".toList trimmed with
  | none => (importItemName trimmed).toList
  | some (_, inner) =>
      let inner := if inner.getLast? = some '}' then inner.dropLast else inner
      (inner.splitOn ',').filterMap importItemName

/-! ## Files and symbols -/

section Graph

variable (records : List GraphRecord) (index : RepositoryIndex) (repoScope : Option String)

/-- The repository of a record, or the empty text. -/
def ownerKey (id : String) : String := (index.ownerOf id).getD ""

/-- Whether a record is live and in scope. -/
def participates (id : String) : Bool :=
  let liveness := Liveness.new records
  !liveness.deleted id && repoScope.all fun scope => ownerKey index id = scope

/-- Keep the least record ID of a file. -/
def keepLeast (files : Std.ExtTreeMap FileKey String pairOrder) (entry : FileKey × String) :
    Std.ExtTreeMap FileKey String pairOrder :=
  files.alter entry.1 fun existing =>
    some (existing.elim entry.2 fun id => if byteOrder entry.2 id = .lt then entry.2 else id)

/-- The key of a participating node of a kind, and its ID. -/
def nodeEntry (kind : NodeKind) : GraphRecord → Option (FileKey × NodeRecord)
  | .node node =>
      if node.kind = kind ∧ participates records index repoScope node.id then
        node.repoRelativePath.map fun path => ((ownerKey index node.id, path), node)
      else none
  | _ => none

/-- `files`: the vertices, each with the least ID of its `File` nodes. -/
def files : Std.ExtTreeMap FileKey String pairOrder :=
  (records.filterMap fun record =>
    (nodeEntry records index repoScope .file record).map fun entry =>
      (entry.1, entry.2.id)).foldl keepLeast ∅

/-- The participating symbols, each with its file. -/
def symbols : List (FileKey × NodeRecord) :=
  records.filterMap (nodeEntry records index repoScope .symbol)

/-- `symbol_file`. -/
def symbolFile : StrMap FileKey :=
  (symbols records index repoScope).foldl (insertEntry fun entry => some (entry.2.id, entry.1)) ∅

/-- `defs_by_name`. -/
def defsByName : StrMap (Std.ExtTreeSet FileKey pairOrder) :=
  ((symbols records index repoScope).filterMap fun entry =>
    entry.2.name.map fun name => (leafSegment name, entry.1)).foldl
      (pushOnto Prod.fst (fun keys definition => keys.insert definition.2) ∅) ∅

/-- The files of a repository that define a name. -/
def candidates (repo segment : String) : List FileKey :=
  ((defsByName records index repoScope).getD segment ∅).toList.filter fun key => key.1 = repo

/-! ## Dependencies -/

/-- What `add_dependency` is called with. -/
structure Dependency where
  source : FileKey
  target : FileKey
  relation : String
  recordId : String
  resolution : Option CallResolution
  deriving DecidableEq, Repr

/-- What the loop over the `CALLS` edges does with one of them. -/
inductive CallOutcome where
  | ambiguous | unresolved | unlabeled
  | resolved (dependency : Dependency)
  deriving DecidableEq, Repr

/-- The turn of a `CALLS` edge. -/
def callOutcome (entry : GraphRecord × Nat) : Option CallOutcome :=
  let liveness := Liveness.new records
  let symbolFile := symbolFile records index repoScope
  let files := files records index repoScope
  match entry.1 with
  | .edge edge =>
      if edge.label = .calls ∧ liveness.isLatestEdgeVersion edge.id entry.2 ∧
          liveness.deleted edge.id = false then
        symbolFile[edge.source]?.bind fun source =>
          match edge.resolution with
          | some .ambiguous => some .ambiguous
          | some .unresolved | some .unresolvedDispatch => some .unresolved
          | some .resolved | none =>
              symbolFile[edge.target]?.bind fun target =>
                if source = target ∨ !files.contains source ∨ !files.contains target then none
                else if edge.resolution = none then some .unlabeled
                else some (.resolved ⟨source, target, "CALLS", edge.id, edge.resolution⟩)
      else none
  | _ => none

/-- What the loop over the imports does with one imported name, or with an import that is not of
Rust. A name that the file itself defines is resolved without a dependency. -/
inductive ImportOutcome where
  | nonRust | external | ambiguous
  | resolved (dependency : Option Dependency)
  deriving DecidableEq, Repr

/-- The turn of an imported name. -/
def nameOutcome (importId : String) (source : FileKey) (segment : String) : ImportOutcome :=
  match candidates records index repoScope source.1 segment with
  | [] => .external
  | [target] =>
      .resolved (if target = source then none else some ⟨source, target, "IMPORTS", importId, none⟩)
  | _ => .ambiguous

/-- The turns of an import. -/
def importOutcomes : GraphRecord → List ImportOutcome
  | .node node =>
      match node.name, node.repoRelativePath with
      | some name, some path =>
          let source := (ownerKey index node.id, path)
          if ¬ (node.kind = .importDecl ∧ participates records index repoScope node.id) then []
          else if node.language ≠ some "rust" then [.nonRust]
          else if !(files records index repoScope).contains source then []
          else (importedSymbolNames name).map (nameOutcome records index repoScope node.id source)
      | _, _ => []
  | _ => []

/-- The outcomes of the `CALLS` edges. -/
def calls : List CallOutcome := records.zipIdx.filterMap (callOutcome records index repoScope)

/-- The outcomes of the imports. -/
def imports : List ImportOutcome := records.flatMap (importOutcomes records index repoScope)

/-- The dependencies, in the order in which they are added. -/
def dependencies : List Dependency :=
  (calls records index repoScope).filterMap (fun outcome =>
    match outcome with
    | .resolved dependency => some dependency
    | _ => none) ++
  (imports records index repoScope).filterMap fun outcome =>
    match outcome with
    | .resolved dependency => dependency
    | _ => none

/-- `edge_evidence`: what each edge of the graph is made of. Its keys are the edges of `adjacency`. -/
def edgeEvidence :
    Std.ExtTreeMap (FileKey × FileKey) (Std.ExtTreeMap (String × String) (Option CallResolution)
      pairOrder) edgeOrder :=
  (dependencies records index repoScope).foldl
    (pushOnto (fun dependency => (dependency.source, dependency.target))
      (fun evidence dependency =>
        evidence.insert (dependency.relation, dependency.recordId) dependency.resolution) ∅) ∅

/-! ## Vertices -/

/-- `keys`: the vertices in their order. -/
def keys : List FileKey :=
  (files records index repoScope).keys.insertionSort fun key other => vertexOrder key other ≠ .gt

/-- `index_of`: the position of a vertex. -/
def indexOf (key : FileKey) : Option Nat := (keys records index repoScope).idxOf? key

/-- The positions of the ends of an edge. -/
def edgePosition (edge : FileKey × FileKey) : Option (Nat × Nat) :=
  (indexOf records index repoScope edge.1).bind fun source =>
    (indexOf records index repoScope edge.2).map fun target => (source, target)

/-- The edges by their positions; a file that is no vertex panics. -/
def edgePositions : Option (List (Nat × Nat)) :=
  (edgeEvidence records index repoScope).keys.mapM (edgePosition records index repoScope)

/-- `adj`: the successors of each vertex, in order. -/
def successorRows : Option (List (List Nat)) :=
  (edgePositions records index repoScope).map fun edges =>
    (List.range (keys records index repoScope).length).map fun source =>
      ((edges.filter fun edge => edge.1 = source).map Prod.snd).insertionSort (· ≤ ·)

/-! ## Scopes -/

/-- `by_id`: the last record of each ID. -/
def recordById : StrMap GraphRecord :=
  records.foldl (insertEntry fun record => some (record.id, record)) ∅

/-- The files of the anchors of a scope target. -/
def scopeFiles (anchors : List String) : List FileKey :=
  anchors.filterMap fun anchor =>
    ((recordById records)[anchor]?.bind GraphRecord.asNode).bind fun node =>
      node.repoRelativePath.map fun path => (ownerKey index anchor, path)

/-- `scope_indices`. -/
def scopeIndices (anchors : List String) : List Nat :=
  (scopeFiles records index anchors).filterMap (indexOf records index repoScope)

/-- The cycles that a scope target keeps. -/
def keptInScope (scopeTarget : Option (List String)) (cycles : List (List Nat)) : List (List Nat) :=
  match scopeTarget with
  | none => cycles
  | some anchors =>
      let kept := scopeIndices records index repoScope anchors
      cycles.filter fun cycle => cycle.any fun vertex => vertex ∈ kept

/-! ## Rows -/

/-- The key of a vertex. -/
def keyAt (vertex : Nat) : FileKey := (keys records index repoScope).getD vertex ("", "")

/-- The member of a vertex. -/
def cycleMember (vertex : Nat) : CycleMember where
  recordId := (files records index repoScope).getD (keyAt records index repoScope vertex) ""
  repoRelativePath := (keyAt records index repoScope vertex).2

/-- The edge between two vertices. -/
def cycleEdge (source target : Nat) : CycleEdge :=
  let source := keyAt records index repoScope source
  let target := keyAt records index repoScope target
  let contributions := (edgeEvidence records index repoScope).getD (source, target) ∅
  { source := source.2
    target := target.2
    relations := (contributions.keys.foldl (fun relations key => relations.insert key.1)
      (∅ : StrSet)).toList
    evidence := (contributions.toList.take maxCycleEvidencePerEdge).map fun entry =>
      ⟨entry.1.1, entry.1.2, entry.2⟩
    evidenceTotal := contributions.size }

/-- A cycle with its citations. Each vertex leads to the next, the last to the first. -/
def materialize (cycle : List Nat) : DependencyCycle where
  members := cycle.map (cycleMember records index repoScope)
  edges := (cycle.zip (cycle.rotate 1)).map fun edge =>
    cycleEdge records index repoScope edge.1 edge.2

/-- `counts`. -/
def dependencyCounts : DependencyCycleCounts :=
  let calls := calls records index repoScope
  let imports := imports records index repoScope
  { files := (files records index repoScope).size
    dependencyEdges := (edgeEvidence records index repoScope).size
    callsResolved := calls.countP fun outcome => outcome matches .resolved _
    callsAmbiguousExcluded := calls.count .ambiguous
    callsUnresolvedExcluded := calls.count .unresolved
    callsUnlabeledExcluded := calls.count .unlabeled
    importsResolved := imports.countP fun outcome => outcome matches .resolved _
    importsAmbiguousExcluded := imports.count .ambiguous
    importsExternal := imports.count .external
    importsNonRustExcluded := imports.count .nonRust }

/-! ## Diagnostics -/

section Diagnostics

variable (counts : DependencyCycleCounts) (scopeTarget : Option (List String)) (truncated : Bool)

/-- The diagnostic of an answer without cycles. -/
def acyclicDiagnostic : DependencyCycleDiagnostic where
  code := "acyclic"
  recordId := none
  detail :=
    if counts.files = 0 then "graph contains no code-graph file records"
    else if scopeTarget.isSome then "no dependency cycle includes the scoped node"
    else "no dependency cycles detected over resolved CALLS and unambiguous IMPORTS dependency edges"

/-- The diagnostics in the order in which they are pushed. -/
def pushedDiagnostics (cycles : List DependencyCycle) : List DependencyCycleDiagnostic :=
  (if cycles.isEmpty then [acyclicDiagnostic counts scopeTarget] else []) ++
  (if 0 < counts.callsAmbiguousExcluded + counts.importsAmbiguousExcluded then
    [⟨"ambiguous_dependencies_excluded", none,
      toString counts.callsAmbiguousExcluded ++ " ambiguous CALLS edge(s) and " ++
        toString counts.importsAmbiguousExcluded ++ " ambiguous import(s) were excluded from " ++
        "cycle detection; ambiguity never fabricates a cycle"⟩]
  else []) ++
  (if 0 < counts.callsUnresolvedExcluded then
    [⟨"unresolved_calls_excluded", none,
      toString counts.callsUnresolvedExcluded ++ " unresolved CALLS edge(s) have no in-repo " ++
        "target and were excluded from cycle detection"⟩]
  else []) ++
  (if 0 < counts.callsUnlabeledExcluded then
    [⟨"unlabeled_calls_excluded", none,
      toString counts.callsUnlabeledExcluded ++ " cross-file CALLS edge(s) carry no resolution " ++
        "label (store predates issues #152/#134?) and were excluded from cycle detection; " ++
        "absence never means resolved — re-scan to label them"⟩]
  else []) ++
  (if 0 < counts.importsNonRustExcluded then
    [⟨"non_rust_imports_excluded", none,
      toString counts.importsNonRustExcluded ++ " non-Rust import declaration(s) are outside " ++
        "this slice's Rust-only import name resolution and were excluded from cycle detection; " ++
        "their absence from the cycle set is not proof of acyclicity"⟩]
  else []) ++
  (if truncated then
    [⟨"cycles_truncated", none,
      "cycle enumeration stopped at " ++ toString maxDependencyCycles ++
        " cycles; the returned set is the canonical prefix"⟩]
  else [])

/-- The order of the diagnostics. -/
def diagnosticOrder : DependencyCycleDiagnostic → DependencyCycleDiagnostic → Ordering :=
  compareLex (compareOn fun diagnostic => asBytes diagnostic.code)
    (compareLex (fun first second => optionOrder byteOrder first.recordId second.recordId)
      (compareOn fun diagnostic => asBytes diagnostic.detail))

end Diagnostics

/-! ## Answers -/

/-- The answer that is made of the cycles found. -/
def answer (scopeTarget : Option (List String)) (found : List (List Nat)) (truncated : Bool) :
    DependencyCycles :=
  let sorted := found.insertionSort (· ≤ ·)
  let cycles := (keptInScope records index repoScope scopeTarget sorted).map
    (materialize records index repoScope)
  let counts := dependencyCounts records index repoScope
  { cycles
    cyclesTotal := sorted.length
    counts
    diagnostics := ((pushedDiagnostics counts scopeTarget truncated cycles).insertionSort
      fun first second => diagnosticOrder first second ≠ .gt).dedup
    truncated }

/-- `dependency_cycles`; `none` where it panics. -/
def dependencyCycles (scopeTarget : Option (List String)) : Option DependencyCycles := do
  let rows ← successorRows records index repoScope
  let (found, truncated) ← enumerateElementaryCycles rows maxDependencyCycles
  return answer records index repoScope scopeTarget found truncated

end Graph

end Egregore.FileCycles
