import Egregore.Base.Flood
import Egregore.Languages.OutOfLine

/-!
# Crate roots

`languages/cross_file.rs`: the crate that a file belongs to, by its path, and the reassignment of
the helper modules of a test, an example or a benchmark to the one target that includes them.
-/

namespace Egregore

open Base

section Paths

/-- `path_segments`: at both separators, without the empty parts. -/
def crateSegments (path : String) : List String :=
  ((path.toList.splitOnP fun char => char = '/' ∨ char = '\\').filter (· ≠ [])).map String.ofList

/-- Whether `Path::extension` of a file name is `rs`. -/
def isRs (name : String) : Bool :=
  ".rs".toList.isSuffixOf name.toList && name ≠ ".rs"

/-- Drops `sr.` from the front as long as it is there. -/
def dropReversedRs : List Char → List Char
  | 's' :: 'r' :: '.' :: rest => dropReversedRs rest
  | chars => chars

/-- `file.trim_end_matches(".rs")`. -/
def trimEndRs (file : String) : String :=
  String.ofList (dropReversedRs file.toList.reverse).reverse

/-- The directories in which the targets of a crate lie. -/
def isTargetMarker (segment : String) : Bool :=
  segment = "src" || segment = "tests" || segment = "examples" || segment = "benches"

/-- `split_crate_prefix`. -/
def splitCratePrefix (path : String) : String × List String :=
  let segments := crateSegments path
  let lastBuild := (segments.reverse.findIdx? (· = "build.rs")).map (segments.length - 1 - ·)
  match (segments.findIdx? isTargetMarker).or lastBuild with
  | none | some 0 => ("", segments)
  | some index => ("/".intercalate (segments.take index), segments.drop index)

/-- The root of a target: of a file by its stem, of a directory by its name. -/
def auxRoot (kind : String) : List String → Option String
  | [] => none
  | [file] => some (kind ++ ":" ++ if isRs file then trimEndRs file else file)
  | dir :: _ => some (kind ++ ":" ++ dir)

/-- `base_crate_root_id`. -/
def baseCrateRootId : List String → String
  | ["build.rs"] => "build"
  | "src" :: "bin" :: rest => (auxRoot "bin" rest).getD "lib"
  | "examples" :: rest => (auxRoot "example" rest).getD "lib"
  | "tests" :: rest => (auxRoot "test" rest).getD "lib"
  | "benches" :: rest => (auxRoot "bench" rest).getD "lib"
  | _ => "lib"

/-- `crate_root_id`. -/
def crateRootId (path : String) : String :=
  let (cratePrefix, remainder) := splitCratePrefix path
  if cratePrefix = "" then baseCrateRootId remainder
  else cratePrefix ++ "::" ++ baseCrateRootId remainder

/-- `crate_name_of`. -/
def crateNameOf (path : String) : Option String :=
  let cratePrefix := (splitCratePrefix path).1
  if cratePrefix = "" then none
  else
    (pathSegments cratePrefix).getLast?.map fun name =>
      String.ofList (name.map fun char => if char = '-' then '_' else char)

/-- `aux_entry_crate_root`: the root of a file that is compiled as a crate of its own. -/
def auxEntryCrateRoot (path : String) : Option String :=
  let entryRoot := fun kind rest =>
    match rest with
    | [file] => if isRs file then some (kind ++ ":" ++ trimEndRs file) else none
    | [name, "main.rs"] => some (kind ++ ":" ++ name)
    | _ => none
  match (pathSegments path).map String.ofList with
  | "tests" :: rest => entryRoot "test" rest
  | "examples" :: rest => entryRoot "example" rest
  | "benches" :: rest => entryRoot "bench" rest
  | _ => none

end Paths

section Helpers

/-- `resolve_aux_helper_mod`. -/
def resolveAuxHelperMod (declaringFile : String) (isEntryRoot : Bool) (fact : OutOfLineModFact)
    (knownPaths : StrSet) : Option String :=
  if fact.underInlinePathOverride ∨ fact.pathOverride.isSome ∨ fact.inlineModulePath ≠ [] then none
  else
    let base :=
      if isEntryRoot then parentDirSegments declaringFile else moduleDirSegments declaringFile
    match joinSuffix base (fact.name ++ ".rs") with
    | none => none
    | some fileCandidate =>
        if fileCandidate ∈ knownPaths then some fileCandidate
        else
          (joinSuffix base (fact.name ++ "/mod.rs")).bind fun dirCandidate =>
            if dirCandidate ∈ knownPaths then some dirCandidate else none

variable (factsByFile : StrMap FileFacts)

/-- The files of a scan. -/
def scannedPaths : StrSet := factsByFile.keys.foldl (·.insert ·) ∅

/-- The files that a file includes, in a walk from an entry. -/
def auxHelperMods (entry file : String) : List String :=
  ((factsByFile[file]?).elim [] FileFacts.outOfLineMods).filterMap fun fact =>
    resolveAuxHelperMod file (file = entry) fact (scannedPaths factsByFile)

/-- An entry reaches a helper. -/
def markIncluder (entryRoot helper : String) (reached : StrMap StrSet) : StrMap StrSet :=
  insertLink reached (helper, entryRoot)

/-- The walk of one file, if it is an entry: a stack, onto which each file is pushed once. -/
def walkIncluder (reached : StrMap StrSet) (entry : String) : StrMap StrSet :=
  match auxEntryCrateRoot entry with
  | none => reached
  | some entryRoot =>
      (pour (fun stack fresh => fresh.reverse ++ stack) (auxHelperMods factsByFile entry)
        (markIncluder entryRoot) (1 + factsByFile.keys.length) [entry] [entry] reached).2

/-- `aux_helper_includer_roots`. -/
def auxHelperIncluderRoots : StrMap (List String) :=
  (factsByFile.keys.foldl (walkIncluder factsByFile) ∅).map fun _ roots => roots.toList

/-- `reassign_aux_helper_crate_roots`. -/
def reassignAuxHelperCrateRoots : StrMap String :=
  (auxHelperIncluderRoots factsByFile).filterMap fun helper roots =>
    match roots with
    | [newRoot] =>
        if (auxEntryCrateRoot helper).isSome ∨ crateRootId helper = newRoot then none
        else some newRoot
    | _ => none

/-- `apply_crate_root_remap`, of one file. -/
def remapFacts (remap : StrMap String) (path : String) (facts : FileFacts) : FileFacts :=
  match remap[path]? with
  | none => facts
  | some newRoot =>
      { facts with
        implTargets := facts.implTargets.map fun target => { target with crateRoot := newRoot }
        pendingImpls := facts.pendingImpls.map fun pending => { pending with crateRoot := newRoot }
        implTraitRelations :=
          facts.implTraitRelations.map fun relation => { relation with crateRoot := newRoot } }

/-- `apply_crate_root_remap`. -/
def applyCrateRootRemap (remap : StrMap String) : StrMap FileFacts :=
  factsByFile.map (remapFacts remap)

/-- The root of a file after the reassignment. -/
def reassignedRoot (remap : StrMap String) (path : String) : String :=
  remap.getD path (crateRootId path)

end Helpers

end Egregore
