import Egregore.Base.Ancestors
import Egregore.Base.OrderedMap
import Mathlib.Data.List.Sort

/-!
# Owning packages

The nearest enclosing Cargo manifest owns a file. The writer walks from the file's directory to the
root of the repository; the reader accepts an attribution only if that walk could have produced it.
-/

namespace Egregore

open Base

/-- `ManifestParseOutcome`, in the order of its variants. -/
inductive ManifestParseOutcome where
  | package (name : String)
  | unnamedPackage | virtual | unusableManifest | unparseable | unreadable
  deriving DecidableEq, Repr

/-- One `Cargo.toml`. -/
structure ManifestPackageFact where
  manifestRepoRelativePath : String
  outcome : ManifestParseOutcome
  deriving DecidableEq, Repr

inductive CrateAttributionStatus where
  | attributed | unattributed
  deriving DecidableEq, Repr

inductive CrateAttributionReason where
  | noEnclosingManifest | virtualManifestOnly | unnamedPackage | unparseableManifest
  | unusableManifest | manifestUnreadable
  deriving DecidableEq, Repr

/-- `CrateAttribution`: any values of its fields, as a store may hold. -/
structure CrateAttribution where
  status : CrateAttributionStatus
  packageName : Option String
  manifestRepoRelativePath : Option String
  unattributedReason : Option CrateAttributionReason
  deriving DecidableEq, Repr

def CrateAttribution.attributed (packageName manifest : String) : CrateAttribution where
  status := .attributed
  packageName := some packageName
  manifestRepoRelativePath := some manifest
  unattributedReason := none

def CrateAttribution.unattributed (reason : CrateAttributionReason) : CrateAttribution where
  status := .unattributed
  packageName := none
  manifestRepoRelativePath := none
  unattributedReason := some reason

section Paths

/-- `path.split('/')`. -/
def pathSegments (path : String) : List (List Char) := path.toList.splitOn '/'

/-- `segments.join("/")`. -/
def joinSegments (segments : List (List Char)) : String :=
  String.ofList (['/'].intercalate segments)

/-- A Windows drive: a letter and a colon. -/
def isDrive : List Char → Bool
  | [letter, ':'] => letter.isAlpha
  | _ => false

/-- Whether `normalize_path` can produce the path. -/
def isRepoRelativePath (path : String) : Bool :=
  if path.toList = [] ∨ path.toList.head? = some '/' then false
  else if '\x00' ∈ path.toList then false
  else if (pathSegments path).head?.any isDrive then false
  else !(pathSegments path).any fun segment => segment = [] ∨ segment = ['.'] ∨ segment = ['.', '.']

def manifestFileName : String := "Cargo.toml"

/-- A path that names a manifest. -/
def manifestPathIsRepoRelative (path : String) : Bool :=
  isRepoRelativePath path && (pathSegments path).getLast? = some manifestFileName.toList

/-- The directories above a path, the nearest first, ending at the root: the loop pushes the joined
segments and drops the last of them until none is left. -/
def ancestorDirs (path : String) : List String :=
  (ancestors ((pathSegments path).filter fun segment => segment ≠ []).dropLast).map joinSegments

/-- Whether the walk from the path of a record reaches the manifest. -/
def manifestEncloses (manifest path : String) : Bool :=
  isRepoRelativePath path &&
    decide (joinSegments ((pathSegments manifest).filter fun segment => segment ≠ []).dropLast ∈
      ancestorDirs path)

end Paths

section Index

/-- The directory of a fact's manifest, if its path is usable. -/
def ManifestPackageFact.directoryKey (fact : ManifestPackageFact) : Option String :=
  if manifestPathIsRepoRelative fact.manifestRepoRelativePath then
    some (joinSegments (pathSegments fact.manifestRepoRelativePath).dropLast)
  else none

def ManifestParseOutcome.variant : ManifestParseOutcome → Nat
  | package _ => 0
  | unnamedPackage => 1
  | virtual => 2
  | unusableManifest => 3
  | unparseable => 4
  | unreadable => 5

def ManifestParseOutcome.packageName : ManifestParseOutcome → String
  | package name => name
  | _ => ""

/-- The derived order of the facts. -/
abbrev factOrder : ManifestPackageFact → ManifestPackageFact → Ordering :=
  compareLex (compareOn fun fact => asBytes fact.manifestRepoRelativePath)
    (compareLex (compareOn fun fact => fact.outcome.variant)
      (compareOn fun fact => asBytes fact.outcome.packageName))

/-- A map from directories to the manifests in them. -/
structure CrateAttributionIndex where
  byDir : StrMap ManifestParseOutcome := ∅
  manifestByDir : StrMap String := ∅

/-- Adds a fact unless its directory has one. -/
def CrateAttributionIndex.addFact (index : CrateAttributionIndex) (fact : ManifestPackageFact) :
    CrateAttributionIndex :=
  match fact.directoryKey with
  | none => index
  | some dir =>
      if index.byDir.contains dir then index
      else
        { byDir := index.byDir.insert dir fact.outcome
          manifestByDir := index.manifestByDir.insert dir fact.manifestRepoRelativePath }

def sortFacts (facts : List ManifestPackageFact) : List ManifestPackageFact :=
  facts.insertionSort fun fact other => factOrder fact other ≠ .gt

/-- `from_facts`. -/
def CrateAttributionIndex.fromFacts (facts : List ManifestPackageFact) : CrateAttributionIndex :=
  (sortFacts facts).foldl addFact {}

/-- What a manifest says about the files below it. A virtual one says nothing. -/
def ManifestParseOutcome.attribution (manifest : String) :
    ManifestParseOutcome → Option CrateAttribution
  | package name => some (.attributed name manifest)
  | unnamedPackage => some (.unattributed .unnamedPackage)
  | unparseable => some (.unattributed .unparseableManifest)
  | unusableManifest => some (.unattributed .unusableManifest)
  | unreadable => some (.unattributed .manifestUnreadable)
  | virtual => none

/-- The walk, which remembers whether it passed a virtual manifest. -/
def CrateAttributionIndex.walk (index : CrateAttributionIndex) (sawVirtual : Bool) :
    List String → CrateAttribution
  | [] => .unattributed (if sawVirtual then .virtualManifestOnly else .noEnclosingManifest)
  | dir :: outer =>
      match index.byDir[dir]? with
      | none => index.walk sawVirtual outer
      | some outcome =>
          match outcome.attribution ((index.manifestByDir[dir]?).getD "") with
          | some attribution => attribution
          | none => index.walk true outer

def CrateAttributionIndex.attributionFor (index : CrateAttributionIndex) (path : String) :
    CrateAttribution :=
  index.walk false (ancestorDirs path)

end Index

section Reader

/-- The crate `unicode_ident`. -/
structure UnicodeIdent where
  isXidStart : Char → Bool
  isXidContinue : Char → Bool

/-- Cargo's rule for the name of a package. -/
def packageNameIsValid (unicode : UnicodeIdent) (name : String) : Bool :=
  match name.toList with
  | [] => false
  | first :: rest =>
      (unicode.isXidStart first || first = '_') &&
        rest.all fun char => unicode.isXidContinue char || char = '-'

namespace CrateAttribution

variable (unicode : UnicodeIdent) (attribution : CrateAttribution)

/-- The package and its manifest, of an attribution of a shape that the writer produces. -/
def owningPackage : Option (String × String) :=
  if attribution.status ≠ .attributed ∨ attribution.unattributedReason.isSome then none
  else
    match attribution.packageName, attribution.manifestRepoRelativePath with
    | some name, some manifest =>
        if packageNameIsValid unicode name && manifestPathIsRepoRelative manifest then
          some (name, manifest)
        else none
    | _, _ => none

/-- `owning_package` for a record that the manifest encloses. -/
def owningPackageFor (path : String) : Option (String × String) :=
  (attribution.owningPackage unicode).filter fun owner => manifestEncloses owner.2 path

/-- The reason, of a lack of a shape that the writer produces. -/
def provenUnattributedReason : Option CrateAttributionReason :=
  if attribution.status ≠ .unattributed ∨ attribution.packageName.isSome ∨
      attribution.manifestRepoRelativePath.isSome then none
  else attribution.unattributedReason

def provenUnattributedReasonFor (path : String) : Option CrateAttributionReason :=
  if isRepoRelativePath path then attribution.provenUnattributedReason else none

/-- Whether the walk could have produced the attribution for a record at the path. -/
def isPresentableFor (path : String) : Bool :=
  (attribution.owningPackageFor unicode path).isSome ||
    (attribution.provenUnattributedReasonFor path).isSome

end CrateAttribution

end Reader

end Egregore
