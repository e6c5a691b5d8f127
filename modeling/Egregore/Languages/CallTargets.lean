import Egregore.Languages.ImplTargets

/-!
# Targets of calls

`DefinitionIndex` of `languages/cross_file.rs`: the definitions of a repository by their simple
name, the traits that its types implement, and the definitions that a call may bind.
-/

namespace Egregore

open Base

/-- By path, qualified name and ID. -/
abbrev definitionOrder : DefinitionFact → DefinitionFact → Ordering :=
  compareLex (compareOn fun definition => asBytes definition.repoRelativePath)
    (compareLex (compareOn fun definition => asBytes definition.qualifiedName)
      (compareOn fun definition => asBytes definition.id))

abbrev blockLocalOrder : BlockLocalDefinitionFact → BlockLocalDefinitionFact → Ordering :=
  compareLex (compareOn fun definition => asBytes definition.repoRelativePath)
    (compareLex (compareOn fun definition => asBytes definition.qualifiedName)
      (compareOn fun definition => asBytes definition.id))

/-- Sorted, and of neighbours with one ID the first. -/
def sortDefinitions (definitions : List DefinitionFact) : List DefinitionFact :=
  dedupBy (compareOn fun definition => asBytes definition.id)
    (definitions.insertionSort fun definition other => definitionOrder definition other ≠ .gt)

def sortBlockLocals (definitions : List BlockLocalDefinitionFact) :
    List BlockLocalDefinitionFact :=
  dedupBy (compareOn fun definition => asBytes definition.id)
    (definitions.insertionSort fun definition other => blockLocalOrder definition other ≠ .gt)

/-- The `implemented` map: the traits of a type of a crate. -/
abbrev ImplementedTraits := Std.ExtTreeMap (String × String) StrSet pairOrder

/-- `DefinitionIndex`. -/
structure DefinitionIndex where
  bySimpleName : StrMap (List DefinitionFact)
  blockLocalsByName : StrMap (List BlockLocalDefinitionFact)
  implemented : ImplementedTraits
  crateNameRoots : StrMap (Option String)
  implIndex : ImplTargetIndex
  auxHelperRoots : StrMap String

section Build

variable (factsByFile : StrMap FileFacts)

/-- A file tells the name of its crate, unless another directory has the name. -/
def addCrateName (roots : StrMap (Option String)) (path : String) : StrMap (Option String) :=
  match crateNameOf path with
  | none => roots
  | some name =>
      let libRoot := (splitCratePrefix path).1 ++ "::lib"
      match roots[name]? with
      | none => roots.insert name (some libRoot)
      | some none => roots
      | some (some existing) => if existing = libRoot then roots else roots.insert name none

/-- `build_crate_name_roots`. -/
def buildCrateNameRoots : StrMap (Option String) := factsByFile.keys.foldl addCrateName ∅

/-- A relation as a pending implementation of one of its paths. -/
def ImplTraitRelationFact.pending (relation : ImplTraitRelationFact) (path : String) :
    PendingImplFact where
  sourceId := ""
  traitPath := path
  crateRoot := relation.crateRoot
  moduleNames := relation.moduleNames

/-- The trait that a relation proves its type to implement: the name of the type tells it from the
others of its crate, its path names a type of the repository, and the path of the trait names a
target. -/
def provenTrait (implIndex : ImplTargetIndex) (useImports : List UseImportFact)
    (relation : ImplTraitRelationFact) : Option String :=
  if implIndex.bareSimpleNameIsAmbiguous relation.crateRoot relation.implType then none
  else
    match implIndex.resolve (relation.pending relation.implTypePath) useImports with
    | none => none
    | some typeDef =>
        if typeDef.symbolKind = "trait" ∨ ¬ isImplTargetKind typeDef.symbolKind then none
        else
          (implIndex.resolve (relation.pending relation.traitPath) useImports).map
            ImplTargetFact.qualifiedName

def addImplemented (implIndex : ImplTargetIndex) (useImports : List UseImportFact)
    (implemented : ImplementedTraits) (relation : ImplTraitRelationFact) : ImplementedTraits :=
  match provenTrait implIndex useImports relation with
  | none => implemented
  | some traitName =>
      implemented.alter (relation.crateRoot, relation.implType) fun traits =>
        some ((traits.getD ∅).insert traitName)

/-- The `implemented` join. -/
def buildImplemented (implIndex : ImplTargetIndex) : ImplementedTraits :=
  factsByFile.toList.foldl (fun implemented entry =>
    entry.2.implTraitRelations.foldl (addImplemented implIndex entry.2.useTraitImports)
      implemented) ∅

/-- `DefinitionIndex::build`. -/
def DefinitionIndex.build (auxHelperRoots : StrMap String) : DefinitionIndex where
  bySimpleName :=
    ((factsByFile.toList.flatMap fun entry => entry.2.definitions).foldl
      (pushEntry fun definition => some (definition.simpleName, definition)) ∅).map
        fun _ definitions => sortDefinitions definitions
  blockLocalsByName :=
    ((factsByFile.toList.flatMap fun entry => entry.2.blockLocalDefinitions).foldl
      (pushEntry fun definition => some (definition.simpleName, definition)) ∅).map
        fun _ definitions => sortBlockLocals definitions
  implemented := buildImplemented factsByFile (ImplTargetIndex.build factsByFile)
  crateNameRoots := buildCrateNameRoots factsByFile
  implIndex := ImplTargetIndex.build factsByFile
  auxHelperRoots := auxHelperRoots

end Build

/-- `is_free_function`. -/
def isFreeFunction (definition : DefinitionFact) : Bool :=
  (definition.symbolKind = "function" || definition.symbolKind = "test") &&
    !definition.isTraitMethod

/-- What a receiver may bind: a method, or a method of a trait. -/
def isReceiverCallable (definition : DefinitionFact) : Bool :=
  definition.symbolKind = "method" || definition.isTraitMethod

/-- The segment before the last. -/
def ownerSegment (segments : List String) : Option String := segments.dropLast.getLast?

namespace DefinitionIndex

variable (index : DefinitionIndex)

/-- `definition_crate_root`. -/
def definitionCrateRoot (definition : DefinitionFact) : String :=
  reassignedRoot index.auxHelperRoots definition.repoRelativePath

/-- `implemented_traits`. -/
def implementedTraits (crateRoot implType : String) : Option StrSet :=
  index.implemented[(crateRoot, implType)]?

/-- `resolve_receiver_type_owner`. -/
def resolveReceiverTypeOwner (crateRoot receiverType : String) : Option String :=
  let leaf := String.ofList (trim (leafSegment receiverType).toList)
  if leaf = "" then none
  else
    match index.implIndex.byQualified.toList.filter fun entry =>
      entry.1.1 = crateRoot ∧ leafSegment entry.1.2 = leaf ∧
        entry.2.any fun fact => isImplTargetKind fact.symbolKind with
    | [entry] => if entry.2.any fun fact => fact.symbolKind = "trait" then none else some leaf
    | _ => none

/-- `resolve_dispatch_trait`. -/
def resolveDispatchTrait (crateRoot traitPath : String) : Option String :=
  let leaf := String.ofList (trim (leafSegment traitPath).toList)
  if leaf = "" then none
  else
    match index.implIndex.qualifiedWithLeaf crateRoot leaf (· = "trait") with
    | [qualified] => some qualified
    | _ => none

/-- The types of a crate that implement a trait. -/
def implementors (crateRoot traitName : String) : List String :=
  (index.implemented.toList.filter fun entry =>
    entry.1.1 = crateRoot ∧ traitName ∈ entry.2).map fun entry => entry.1.2

/-- `dispatch_candidates`. The root of a definition is that of its path here. -/
def dispatchCandidates (traitPath simpleName callerCrateRoot : String) : List DefinitionFact :=
  match index.resolveDispatchTrait callerCrateRoot traitPath with
  | none => []
  | some traitName =>
      (index.bySimpleName.getD simpleName []).filter fun definition =>
        definition.symbolKind = "method" ∧
          crateRootId definition.repoRelativePath = callerCrateRoot ∧
          (ownerSegment definition.matchSegments).any
            (· ∈ index.implementors callerCrateRoot traitName)

/-- `narrow_methods_to_owner`. -/
def narrowMethodsToOwner (owner : String) (methods : List DefinitionFact)
    (simpleName callerCrateRoot : String) : List DefinitionFact :=
  let inherent := methods.filter fun definition =>
    [owner, simpleName].isSuffixOf definition.matchSegments
  if inherent ≠ [] then inherent
  else
    match index.implementedTraits callerCrateRoot owner with
    | none => []
    | some implemented =>
        let gated := methods.filter fun definition =>
          definition.isTraitMethod ∧ index.definitionCrateRoot definition = callerCrateRoot ∧
            2 ≤ definition.matchSegments.length ∧
            "::".intercalate definition.matchSegments.dropLast ∈ implemented
        if 2 ≤ gated.length then [] else gated

/-- `block_local_candidates`. -/
def blockLocalCandidates (call : CallSiteFact) (simpleName : String) :
    List BlockLocalDefinitionFact :=
  if call.callKind ≠ .direct then []
  else
    (index.blockLocalsByName.getD simpleName []).filter fun definition =>
      call.callerId = definition.enclosingScopeId ∨ call.callerId = definition.id

/-- The root that a path call is confined to, and the segments to match. -/
def pathTarget (call : CallSiteFact) (callerCrateRoot : String) :
    Option String × List String :=
  match call.pathRoot with
  | .unqualified => (none, call.calleeSegments)
  | .currentCrate => (some callerCrateRoot, call.calleeSegments)
  | .leading name =>
      let normalized :=
        String.ofList (name.toList.map fun char => if char = '-' then '_' else char)
      match index.crateNameRoots[normalized]? with
      | some (some root) => (some root, call.calleeSegments.tail)
      | _ => (some callerCrateRoot, call.calleeSegments)

/-- `candidates`. -/
def candidates (call : CallSiteFact) (simpleName callerCrateRoot : String) :
    List DefinitionFact :=
  let pool := index.bySimpleName.getD simpleName []
  let methods := pool.filter isReceiverCallable
  match call.callKind with
  | .direct => pool.filter isFreeFunction
  | .method =>
      match call.dispatchTrait with
      | some traitPath => index.dispatchCandidates traitPath simpleName callerCrateRoot
      | none =>
          match call.receiverType.bind (index.resolveReceiverTypeOwner callerCrateRoot) with
          | some owner => index.narrowMethodsToOwner owner methods simpleName callerCrateRoot
          | none => methods
  | .selfMethod =>
      match call.receiverOwner with
      | some owner => index.narrowMethodsToOwner owner methods simpleName callerCrateRoot
      | none => methods
  | .path =>
      if call.calleeSegments.length ≤ 1 then pool.filter isFreeFunction
      else
        let (targetRoot, segments) := index.pathTarget call callerCrateRoot
        pool.filter fun definition =>
          targetRoot.all (index.definitionCrateRoot definition = ·) ∧
            segments.isSuffixOf definition.matchSegments

end DefinitionIndex

end Egregore
