import Mathlib.Tactic.Common

/-!
# Facts of a file

`languages/cross_file.rs`: what the extractor of a file exports to the passes over the whole
repository, without the facts of macros, constructions and routes.
-/

namespace Egregore

/-- `SourceSpan`, of a call. -/
structure CallSpan where
  startByte : Nat
  endByte : Nat
  startLine : Nat
  endLine : Nat
  startColumn : Option Nat := none
  endColumn : Option Nat := none
  deriving DecidableEq, Repr

/-- `DefinitionFact`. -/
structure DefinitionFact where
  id : String
  qualifiedName : String
  simpleName : String
  matchSegments : List String
  symbolKind : String
  isTraitMethod : Bool := false
  repoRelativePath : String
  deriving DecidableEq, Repr

/-- `BlockLocalDefinitionFact`. -/
structure BlockLocalDefinitionFact where
  id : String
  qualifiedName : String
  simpleName : String
  symbolKind : String
  enclosingScopeId : String
  repoRelativePath : String
  deriving DecidableEq, Repr

inductive CallKind where
  | direct | path | method | selfMethod
  deriving DecidableEq, Repr

inductive CallPathRoot where
  | unqualified | currentCrate
  | leading (name : String)
  deriving DecidableEq, Repr

/-- `CallSiteFact`. -/
structure CallSiteFact where
  callerId : String
  callerName : String
  calleeDisplay : String
  calleeSegments : List String
  callKind : CallKind
  pathRoot : CallPathRoot := .unqualified
  receiverOwner : Option String := none
  receiverType : Option String := none
  dispatchTrait : Option String := none
  span : CallSpan
  deriving DecidableEq, Repr

/-- `OutOfLineModFact`. -/
structure OutOfLineModFact where
  name : String
  inlineModulePath : List String := []
  testGated : Bool := false
  pathOverride : Option String := none
  underInlinePathOverride : Bool := false
  cfgGates : List String := []
  deriving DecidableEq, Repr

/-- `ImplTargetFact`. -/
structure ImplTargetFact where
  id : String
  qualifiedName : String
  crateRoot : String := ""
  modulePath : List String := []
  symbolKind : String
  deriving DecidableEq, Repr

/-- `PendingImplFact`. -/
structure PendingImplFact where
  sourceId : String
  traitPath : String
  crateRoot : String := ""
  moduleNames : List String := []
  shadowedByUse : Bool := false
  deriving DecidableEq, Repr

/-- `UseImportFact`. -/
structure UseImportFact where
  moduleNames : List String := []
  simpleName : String
  resolvedPath : String
  deriving DecidableEq, Repr

/-- `ImplTraitRelationFact`. -/
structure ImplTraitRelationFact where
  implType : String
  implTypePath : String := ""
  traitPath : String
  crateRoot : String := ""
  moduleNames : List String := []
  deriving DecidableEq, Repr

/-- `FileFacts`. -/
structure FileFacts where
  definitions : List DefinitionFact := []
  blockLocalDefinitions : List BlockLocalDefinitionFact := []
  callSites : List CallSiteFact := []
  outOfLineMods : List OutOfLineModFact := []
  implTargets : List ImplTargetFact := []
  pendingImpls : List PendingImplFact := []
  useTraitImports : List UseImportFact := []
  implTraitRelations : List ImplTraitRelationFact := []
  deriving DecidableEq, Repr

end Egregore
