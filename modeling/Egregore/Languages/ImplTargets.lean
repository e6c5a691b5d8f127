import Egregore.Base.Dedup
import Egregore.Base.Text
import Egregore.Languages.CrateRoots

/-!
# Targets of implementations

`ImplTargetIndex` of `languages/cross_file.rs`: the traits and types of a repository, by the root
of their crate and their qualified name, and how a path in an `impl` header names one of them.
-/

namespace Egregore

open Base

section Paths

/-- The text before the first `::`. -/
def beforeColons : List Char → List Char
  | [] => []
  | ':' :: ':' :: _ => []
  | char :: rest => char :: beforeColons rest

/-- `path.split("::").next()`. -/
def firstSegment (path : String) : String := String.ofList (beforeColons path.toList)

/-- `qualified.rsplit("::").next()`. -/
def leafSegment (qualified : String) : String :=
  String.ofList (beforeColons qualified.toList.reverse).reverse

/-- Whether a path has more than one segment. -/
def isQualifiedPath (path : String) : Bool := (splitOnce "::".toList path.toList).isSome

/-- `is_impl_target_kind`. -/
def isImplTargetKind (symbolKind : String) : Bool :=
  symbolKind = "trait" || symbolKind = "struct" || symbolKind = "enum" || symbolKind = "type_alias"

/-- `use_path_is_in_repo_rooted`. -/
def usePathIsInRepoRooted (path : String) : Bool :=
  firstSegment path = "crate" || firstSegment path = "self" || firstSegment path = "super"

/-- `use_path_first_segment_is_extern_prelude`. -/
def usePathFirstSegmentIsExternPrelude (path : String) : Bool :=
  firstSegment path = "std" || firstSegment path = "core" || firstSegment path = "alloc" ||
    firstSegment path = "proc_macro" || firstSegment path = "test"

/-- A path below the modules. -/
def underModules (moduleNames : List String) (path : String) : String :=
  if moduleNames = [] then path else "::".intercalate moduleNames ++ "::" ++ path

/-- Each `super::` leaves a module; there is none above the root. -/
def leaveModules : Nat → List String → List Char → Option String
  | 0, moduleNames, remaining => some (underModules moduleNames (String.ofList remaining))
  | fuel + 1, moduleNames, remaining =>
      match stripPrefix "super::".toList remaining with
      | none => some (underModules moduleNames (String.ofList remaining))
      | some rest =>
          if moduleNames = [] then none else leaveModules fuel moduleNames.dropLast rest

/-- `normalize_absolute_trait_path`. -/
def normalizeAbsoluteTraitPath (target : String) (moduleNames : List String) : Option String :=
  match stripPrefix "crate::".toList target.toList with
  | some rest => some (String.ofList rest)
  | none =>
      match stripPrefix "self::".toList target.toList with
      | some rest => some (underModules moduleNames (String.ofList rest))
      | none =>
          if "super::".toList.isPrefixOf target.toList then
            leaveModules target.length moduleNames target.toList
          else none

/-- `ImportBinding`. -/
inductive ImportBinding where
  | resolved (path : String)
  | veto | noImport
  deriving DecidableEq, Repr

/-- `lookup_use_import`: the imports of the name in the module, of which all must agree. -/
def lookupUseImport (useImports : List UseImportFact) (moduleNames : List String)
    (simpleName : String) : ImportBinding :=
  let bound := (useImports.filter fun binding =>
    binding.moduleNames = moduleNames ∧ binding.simpleName = simpleName).map
      UseImportFact.resolvedPath
  match bound with
  | [] => .noImport
  | path :: others =>
      if others.any (· ≠ path) then .veto
      else if !usePathIsInRepoRooted path && usePathFirstSegmentIsExternPrelude path then .veto
      else .resolved path

end Paths

/-- `ImplTargetIndex`. -/
structure ImplTargetIndex where
  byQualified : Std.ExtTreeMap (String × String) (List ImplTargetFact) pairOrder

namespace ImplTargetIndex

/-- By ID, each ID once. -/
def sortTargets (targets : List ImplTargetFact) : List ImplTargetFact :=
  dedupBy (compareOn fun target => asBytes target.id)
    (targets.insertionSort fun target other => compareOn (fun target => asBytes target.id)
      target other ≠ .gt)

/-- `ImplTargetIndex::build`. -/
def build (factsByFile : StrMap FileFacts) : ImplTargetIndex where
  byQualified :=
    ((factsByFile.toList.flatMap fun entry => entry.2.implTargets).foldl
      (pushEntry fun target => some ((target.crateRoot, target.qualifiedName), target)) ∅).map
        fun _ targets => sortTargets targets

variable (index : ImplTargetIndex)

/-- `lookup`. -/
def lookup (crateRoot qualified : String) : List ImplTargetFact :=
  index.byQualified.getD (crateRoot, qualified) []

/-- The qualified names of a root that end in the name, where a target is of a kind. -/
def qualifiedWithLeaf (crateRoot leaf : String) (kind : String → Bool) : List String :=
  (index.byQualified.toList.filter fun entry =>
    entry.1.1 = crateRoot ∧ leafSegment entry.1.2 = leaf ∧
      entry.2.any fun fact => kind fact.symbolKind).map fun entry => entry.1.2

/-- `bare_simple_name_is_ambiguous`. -/
def bareSimpleNameIsAmbiguous (crateRoot simple : String) : Bool :=
  1 < (index.qualifiedWithLeaf crateRoot simple isImplTargetKind).length

/-- `scope_walk`: from the module outwards, the first level that has a target. -/
def scopeWalk (crateRoot target : String) (moduleNames : List String) : List ImplTargetFact :=
  (((List.range (moduleNames.length + 1)).reverse.map fun depth =>
    index.lookup crateRoot (underModules (moduleNames.take depth) target)).find? (· ≠ [])).getD []

/-- `candidates`. -/
def candidates (crateRoot traitPath : String) (moduleNames : List String) :
    List ImplTargetFact :=
  if isQualifiedPath traitPath then
    match normalizeAbsoluteTraitPath traitPath moduleNames with
    | some normalized => index.lookup crateRoot normalized
    | none => index.scopeWalk crateRoot traitPath moduleNames
  else if index.bareSimpleNameIsAmbiguous crateRoot traitPath then []
  else index.scopeWalk crateRoot traitPath moduleNames

/-- The only one of some targets. -/
def only : List ImplTargetFact → Option ImplTargetFact
  | [target] => some target
  | _ => none

/-- `resolve`. -/
def resolve (pending : PendingImplFact) (useImports : List UseImportFact) :
    Option ImplTargetFact :=
  let direct := only (index.candidates pending.crateRoot pending.traitPath pending.moduleNames)
  if isQualifiedPath pending.traitPath then direct
  else
    match lookupUseImport useImports pending.moduleNames pending.traitPath with
    | .resolved path => only (index.candidates pending.crateRoot path pending.moduleNames)
    | .veto => none
    | .noImport => direct

end ImplTargetIndex

end Egregore
