import Egregore.CrateAttribution
import Egregore.Ir
import Egregore.Languages.Facts

/-!
# Out-of-line modules

`languages/cross_file.rs`: the file that a declaration without a body loads.
-/

namespace Egregore

open Base

section Resolve

/-- `module_dir_segments`. -/
def moduleDirSegments (filePath : String) : List String :=
  let parts := (pathSegments filePath).map String.ofList
  match parts.getLast? with
  | none => parts
  | some last =>
      if last = "lib.rs" ∨ last = "main.rs" ∨ last = "mod.rs" then parts.dropLast
      else if ".rs".toList <:+ last.toList then
        parts.dropLast ++ [String.ofList (last.toList.dropLast.dropLast.dropLast)]
      else parts.dropLast

/-- `parent_dir_segments`. -/
def parentDirSegments (filePath : String) : List String :=
  ((pathSegments filePath).map String.ofList).dropLast

/-- One part of a relative suffix: `..` drops a segment, if there is one. -/
def joinPart (segments : List String) (part : String) : Option (List String) :=
  if part = "" ∨ part = "." then some segments
  else if part = ".." then if segments = [] then none else some segments.dropLast
  else some (segments ++ [part])

/-- `join_segments`. -/
def joinSuffix (dir : List String) (suffix : String) : Option String :=
  match ((pathSegments suffix).map String.ofList).foldlM joinPart dir with
  | none => none
  | some segments => if segments = [] then none else some ("/".intercalate segments)

/-- `resolve_out_of_line_target`. -/
def resolveOutOfLineTarget (declaringFile : String) (fact : OutOfLineModFact)
    (knownPaths : StrSet) : Option String :=
  let known := fun candidate => if candidate ∈ knownPaths then some candidate else none
  if fact.underInlinePathOverride then none
  else
    match fact.pathOverride with
    | some overridePath =>
        let base :=
          if fact.inlineModulePath = [] then parentDirSegments declaringFile
          else moduleDirSegments declaringFile ++ fact.inlineModulePath
        (joinSuffix base overridePath).bind known
    | none =>
        let base := moduleDirSegments declaringFile ++ fact.inlineModulePath
        match joinSuffix base (fact.name ++ ".rs") with
        | none => none
        | some fileCandidate =>
            if fileCandidate ∈ knownPaths then some fileCandidate
            else (joinSuffix base (fact.name ++ "/mod.rs")).bind known

/-- The path of a node record. -/
def GraphRecord.filePath : GraphRecord → Option String
  | .node record => record.repoRelativePath
  | _ => none

/-- `known_file_paths`. -/
def knownFilePaths (records : List GraphRecord) (factsByFile : StrMap FileFacts) : StrSet :=
  (factsByFile.keys ++ records.filterMap GraphRecord.filePath).foldl (·.insert ·) ∅

end Resolve

end Egregore
