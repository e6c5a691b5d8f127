import Egregore.Languages.OutOfLine

/-!
# Inherited compilation gates

`apply_out_of_line_cfg_gates`: the records of a module file inherit the gates of the
declarations that load it. A loop recomputes what every declared file inherits until a round
changes nothing; it is modelled with a bound on its rounds.
-/

namespace Egregore

open Base

/-- A record with its `cfg` metadata. -/
structure GatedRecord where
  record : GraphRecord
  cfg : Option (List String) := none
  deriving DecidableEq

/-- A declaration that was resolved: the file it loads, its own file and its gates. -/
structure GateDeclaration where
  target : String
  declaringFile : String
  chain : List String
  deriving DecidableEq, Repr

section Rounds

/-- The resolved declarations, by file and in fact order. -/
def gateDeclarations (factsByFile : StrMap FileFacts) (knownPaths : StrSet) :
    List GateDeclaration :=
  factsByFile.toList.flatMap fun entry =>
    entry.2.outOfLineMods.filterMap fun fact =>
      (resolveOutOfLineTarget entry.1 fact knownPaths).map fun target =>
        ⟨target, entry.1, fact.cfgGates⟩

variable (declarations : List GateDeclaration)

/-- `target_chains`: the effective chains of each target. -/
def targetChains (inherited : StrMap (List String)) : StrMap (List (List String)) :=
  declarations.foldl (pushEntry fun declaration =>
    some (declaration.target,
      inherited.getD declaration.declaringFile [] ++ declaration.chain)) ∅

/-- What a target inherits of its chains: nothing if one of them is empty, else their union. -/
def gateTarget (state : StrMap (List String) × Bool) (entry : String × List (List String)) :
    StrMap (List String) × Bool :=
  if entry.2.any List.isEmpty then
    if state.1.contains entry.1 then (state.1.erase entry.1, true) else state
  else
    let union := entry.2.flatten.eraseDups
    if state.1[entry.1]? = some union then state else (state.1.insert entry.1 union, true)

/-- One round, and whether it changed anything. -/
def gateRound (inherited : StrMap (List String)) : StrMap (List String) × Bool :=
  (targetChains declarations inherited).toList.foldl gateTarget (inherited, false)

/-- The loop, for at most so many rounds. -/
def gateFixpoint : Nat → StrMap (List String) → Option (StrMap (List String))
  | 0, _ => none
  | rounds + 1, inherited =>
      let (next, changed) := gateRound declarations inherited
      if changed then gateFixpoint rounds next else some next

end Rounds

section Stamp

/-- Gates after a prefix, each where it first occurs. -/
def mergeGates (inherited existing : List String) : List String :=
  existing.foldl (fun merged gate => if gate ∈ merged then merged else merged ++ [gate]) inherited

/-- The file whose gates a record inherits. -/
def gatedFile : GraphRecord → Option String
  | .node node =>
      if node.kind = .file ∨ node.kind = .symbol ∨ node.kind = .moduleDecl then
        node.repoRelativePath
      else none
  | _ => none

/-- Stamp a record with the gates that its file inherits, before its own. -/
def stampGates (inherited : StrMap (List String)) (gated : GatedRecord) : GatedRecord :=
  match (gatedFile gated.record).bind (inherited[·]?) with
  | none => gated
  | some gates =>
      if gates = [] then gated
      else { gated with cfg := some (mergeGates gates (gated.cfg.getD [])) }

/-- `apply_out_of_line_cfg_gates`, whose loop may take so many rounds. -/
def applyOutOfLineCfgGates (rounds : Nat) (records : List GatedRecord)
    (factsByFile : StrMap FileFacts) : Option (List GatedRecord) :=
  let declarations := gateDeclarations factsByFile
    (knownFilePaths (records.map GatedRecord.record) factsByFile)
  if declarations = [] then some records
  else
    (gateFixpoint declarations rounds ∅).map fun inherited =>
      if inherited.isEmpty then records else records.map (stampGates inherited)

end Stamp

end Egregore
