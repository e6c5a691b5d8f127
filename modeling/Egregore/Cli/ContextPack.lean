import Egregore.Base.JsonText
import Egregore.Base.OrderedMap
import Egregore.Base.SelfMeasure
import Egregore.Query.MemoryCollapse
import Egregore.TokenCost
import Mathlib.Data.List.Sort

/-!
# Context packs

`cli/context_pack.rs`: an answer is fitted into a budget of tokens or bytes, and the rows of the
lowest priority are shed. Texts are compact JSON, and a row is the object that `serde_json` makes
of it.
-/

namespace Egregore

open Base

/-! ## JSON texts -/

section Json

/-- An object as its members in their order, each with the compact text of its value. -/
abbrev RowValue := List (String × List Char)

/-- Texts with commas between them. -/
def commaSeparated : List (List Char) → List Char
  | [] => []
  | item :: items => item ++ items.flatMap (',' :: ·)

def memberText (member : String × List Char) : List Char := quote member.1 ++ ':' :: member.2

def objectText (members : RowValue) : List Char :=
  '\x7b' :: commaSeparated (members.map memberText) ++ ['\x7d']

def arrayText (items : List (List Char)) : List Char := '[' :: commaSeparated items ++ [']']

def boolText (value : Bool) : List Char := if value then "true".toList else "false".toList

def numberText (value : Nat) : List Char := Nat.toDigits 10 value

/-- A member that is left out where there is no value. -/
def optionalMember (key : String) (value : Option (List Char)) : RowValue :=
  (value.map fun text => (key, text)).toList

/-- `Map::remove` of a map that keeps its order: the last member takes the place. -/
def swapRemove (key : String) (members : RowValue) : RowValue :=
  match members.findIdx? fun member => member.1 = key, members.getLast? with
  | some index, some last => (members.set index last).dropLast
  | _, _ => members

end Json

/-! ## Budgets -/

/-- `PackBudget`. -/
inductive PackBudget where
  | tokens (limit : Nat)
  | bytes (limit : Nat)
  deriving DecidableEq, Repr

namespace PackBudget

def limit : PackBudget → Nat
  | tokens limit => limit
  | bytes limit => limit

def modeStr : PackBudget → String
  | tokens _ => "tokens"
  | bytes _ => "bytes"

def measure : PackBudget → List Char → Nat
  | tokens _, text => countTokens text
  | bytes _, text => byteLength text

end PackBudget

/-! ## The answer -/

/-- A row of a section: its record, its trust and its value. -/
structure ContextRow where
  recordId : String
  trust : TrustClass
  value : RowValue

/-- `ContextUnresolved`. -/
structure ContextUnresolved where
  sourceRecordId : String
  targetHandle : String
  relation : String
  targetDomain : String
  verificationStatus : String

def ContextUnresolved.value (row : ContextUnresolved) : RowValue :=
  [("source_record_id", quote row.sourceRecordId), ("target_handle", quote row.targetHandle),
    ("relation", quote row.relation), ("target_domain", quote row.targetDomain),
    ("verification_status", quote row.verificationStatus)]

/-- `ContextSections`. -/
structure ContextSections where
  sourceFacts : List ContextRow := []
  topologyEdges : List ContextRow := []
  observations : List ContextRow := []
  decisions : List ContextRow := []
  projectState : List ContextRow := []
  artifacts : List ContextRow := []
  verificationEvidence : List ContextRow := []
  unresolved : List ContextUnresolved := []
  policy : List ContextRow := []

/-- `StoreCoverage`. -/
structure StoreCoverage where
  codeGraph : Bool := false
  agentMemory : Bool := false
  project : Bool := false
  artifact : Bool := false
  verification : Bool := false

def StoreCoverage.text (coverage : StoreCoverage) : List Char :=
  objectText [("code_graph", boolText coverage.codeGraph),
    ("agent_memory", boolText coverage.agentMemory), ("project", boolText coverage.project),
    ("artifact", boolText coverage.artifact), ("verification", boolText coverage.verification)]

/-- `PackFixed`. -/
structure PackFixed where
  symbolName : String
  freshness : Option String
  excluded : List RowValue
  corpusMode : String
  corpusModeSource : String
  corpusDisclaimer : String
  storeCoverage : StoreCoverage

/-- `PackTooSmall`. -/
structure PackTooSmall where
  code : String
  symbolName : String
  budgetMode : String
  budget : Nat
  firstRecordCost : Nat
  message : String
  deriving DecidableEq, Repr

/-- `PackTooSmall::new`. -/
def PackTooSmall.new (symbolName : String) (budget : PackBudget) (firstRecordCost : Nat) :
    PackTooSmall where
  code := "budget_too_small"
  symbolName := symbolName
  budgetMode := budget.modeStr
  budget := budget.limit
  firstRecordCost := firstRecordCost
  message := "budget of " ++ toString budget.limit ++ " " ++ budget.modeStr ++
    " cannot hold even one whole record; the smallest possible pack costs " ++
    toString firstRecordCost ++ " " ++ budget.modeStr

/-! ## Priority -/

/-- `trust_priority`. -/
def trustPriority : TrustClass → Nat
  | .sourceDerived => 0
  | .verificationEvidence => 1
  | .agentVerified => 2
  | .projectState => 3
  | .artifact => 4
  | .runtimeObservation => 5
  | .agentUnverified => 6
  | .agentContradicted => 7
  | .other => 8

/-- `PackSection`. -/
inductive PackSection where
  | sourceFacts | topologyEdges | observations | decisions | projectState | artifacts
  | verificationEvidence | driftHistory | unresolved | policy
  deriving DecidableEq, Repr

/-- `section_priority`. -/
def sectionPriority : PackSection → Nat
  | .sourceFacts => 0
  | .topologyEdges => 1
  | .verificationEvidence => 2
  | .decisions => 3
  | .projectState => 4
  | .artifacts => 5
  | .driftHistory => 6
  | .unresolved => 7
  | .policy => 8
  | .observations => 9

/-- The key of a candidate: its trust, its section's relevance, its record and its place. -/
structure PackKey where
  trust : Nat
  relevance : Nat
  recordId : String
  sectionIdx : Nat
  rowIdx : Nat
  deriving DecidableEq, Repr

/-- The order of the keys. -/
def PackKey.order : PackKey → PackKey → Ordering :=
  compareLex (compareOn PackKey.trust) <| compareLex (compareOn PackKey.relevance) <|
    compareLex (fun key other => byteOrder key.recordId other.recordId) <|
      compareLex (compareOn PackKey.sectionIdx) (compareOn PackKey.rowIdx)

/-- `PackCandidate`; the place is in the key. -/
structure PackCandidate where
  key : PackKey
  dropId : String
  deriving DecidableEq, Repr

/-- `sort_by_key`. -/
def sortByKey (candidates : List PackCandidate) : List PackCandidate :=
  candidates.insertionSort fun candidate other => candidate.key.order other.key ≠ .gt

/-! ## The builder -/

/-- `PackBuilder`. -/
structure PackBuilder where
  sections : List (PackSection × List RowValue) := []
  candidates : List PackCandidate := []

/-- What a row brings to `push`. -/
structure PushedRow where
  recordId : String
  trust : TrustClass
  dropId : String
  value : RowValue

namespace PackBuilder

/-- The value that is packed: observations lose their raw text. -/
def packedValue (kind : PackSection) (value : RowValue) : RowValue :=
  if kind = .observations then swapRemove "text" value else value

/-- `push`. -/
def push (kind : PackSection) (rows : List PushedRow) (builder : PackBuilder) : PackBuilder where
  sections := builder.sections ++ [(kind, rows.map fun row => packedValue kind row.value)]
  candidates := builder.candidates ++ rows.mapIdx fun rowIdx row =>
    { key :=
        { trust := trustPriority row.trust
          relevance := sectionPriority kind
          recordId := row.recordId
          sectionIdx := builder.sections.length
          rowIdx := rowIdx }
      dropId := row.dropId }

/-- The rows of a section whose records have their own IDs. -/
def ownRows (rows : List ContextRow) : List PushedRow :=
  rows.map fun row => ⟨row.recordId, row.trust, row.recordId, row.value⟩

/-- Unresolved rows go by the record that names them. -/
def unresolvedRows (rows : List ContextUnresolved) : List PushedRow :=
  rows.map fun row => ⟨row.sourceRecordId, .other, row.sourceRecordId, row.value⟩

/-- The sections of an answer with their rows, in the order of the envelope. -/
def answerSections (sections : ContextSections) (driftHistory : List ContextRow) :
    List (PackSection × List PushedRow) :=
  [(.sourceFacts, ownRows sections.sourceFacts), (.topologyEdges, ownRows sections.topologyEdges),
    (.observations, ownRows sections.observations), (.decisions, ownRows sections.decisions),
    (.projectState, ownRows sections.projectState), (.artifacts, ownRows sections.artifacts),
    (.verificationEvidence, ownRows sections.verificationEvidence),
    (.driftHistory, ownRows driftHistory), (.unresolved, unresolvedRows sections.unresolved),
    (.policy, ownRows sections.policy)]

/-- `push_answer_sections`. -/
def pushAnswerSections (sections : ContextSections) (driftHistory : List ContextRow) :
    PackBuilder :=
  (answerSections sections driftHistory).foldl (fun builder answer => builder.push answer.1 answer.2)
    {}

end PackBuilder

/-! ## The envelope -/

/-- `PackBudgetReport`, the drop account as the IDs that were shed. -/
structure PackBudgetReport where
  budget : PackBudget
  measured : Nat
  dropped : List String

def PackBudgetReport.members (report : PackBudgetReport) : RowValue :=
  [("mode", quote report.budget.modeStr), ("budget", numberText report.budget.limit),
    ("measured", numberText report.measured),
    ("result_complete", boolText report.dropped.isEmpty)] ++
    optionalMember "token_count_method"
      (match report.budget with
        | .tokens _ => some (quote tokenCountMethod)
        | .bytes _ => none) ++
    optionalMember "drop_account"
      (if report.dropped.isEmpty then none
      else some (objectText [("dropped_count", numberText report.dropped.length),
        ("dropped_record_ids", arrayText (report.dropped.map quote))]))

/-- The rows of a section. -/
def rowsText (rows : List RowValue) : List Char := arrayText (rows.map objectText)

/-- `PackResponse`, the rows by the index of their section. -/
structure PackResponse where
  fixed : PackFixed
  rows : Nat → List RowValue
  budget : PackBudgetReport

/-- What stands before the budget. -/
def PackResponse.leading (response : PackResponse) : RowValue :=
  [("ok", boolText true), ("symbol_name", quote response.fixed.symbolName)] ++
    optionalMember "freshness" (response.fixed.freshness.map quote) ++
    [("source_facts", rowsText (response.rows 0))] ++
    optionalMember "topology_edges"
      (if (response.rows 1).isEmpty then none else some (rowsText (response.rows 1))) ++
    [("observations", rowsText (response.rows 2)), ("decisions", rowsText (response.rows 3)),
      ("project_state", rowsText (response.rows 4)), ("artifacts", rowsText (response.rows 5)),
      ("verification_evidence", rowsText (response.rows 6)),
      ("drift_history", rowsText (response.rows 7)), ("unresolved", rowsText (response.rows 8)),
      ("policy", rowsText (response.rows 9))] ++
    optionalMember "excluded"
      (if response.fixed.excluded.isEmpty then none else some (rowsText response.fixed.excluded)) ++
    [("corpus_mode", quote response.fixed.corpusMode),
      ("corpus_mode_source", quote response.fixed.corpusModeSource),
      ("corpus_disclaimer", quote response.fixed.corpusDisclaimer),
      ("store_coverage", response.fixed.storeCoverage.text)]

/-- `serde_json::to_string`. -/
def PackResponse.text (response : PackResponse) : List Char :=
  objectText (response.leading ++ [("budget", objectText response.budget.members)])

/-! ## Assembly -/

/-- A keep-mask for each section. -/
abbrev KeepMasks := List (List Bool)

section Render

variable (sections : List (PackSection × List RowValue)) (masks : KeepMasks)
  (dropped : List String) (fixed : PackFixed) (budget : PackBudget)

/-- The rows of a section that its mask keeps. There are ten sections, so every index has one. -/
def keptRows (sectionIdx : Nat) : List RowValue :=
  match sections[sectionIdx]?, masks[sectionIdx]? with
  | some answer, some mask => ((answer.2.zip mask).filter Prod.snd).map Prod.fst
  | _, _ => []

/-- `render_pack_once`. -/
def renderPackOnce (measured : Nat) : List Char :=
  PackResponse.text
    { fixed := fixed
      rows := keptRows sections masks
      budget :=
        { budget := budget
          measured := measured
          dropped := dropped } }

/-- `render_pack`: the text with its measured size, and what it measures. -/
def renderPack : List Char × Nat :=
  let render := renderPackOnce sections masks dropped fixed budget
  let measured := settle (fun measured => budget.measure (render measured)) 8 0
  (render measured, budget.measure (render measured))

end Render

/-- The masks that keep some candidates. -/
def masksOf (sections : List (PackSection × List RowValue)) (kept : List PackCandidate) :
    KeepMasks :=
  kept.foldl
    (fun masks candidate =>
      masks.modify candidate.key.sectionIdx fun mask => mask.set candidate.key.rowIdx true)
    (sections.map fun answer => answer.2.map fun _ => false)

/-- `assemble_context_pack`. -/
def assembleContextPack (sections : ContextSections) (driftHistory : List ContextRow)
    (fixed : PackFixed) (budget : PackBudget) : Except PackTooSmall (List Char) :=
  let builder := PackBuilder.pushAnswerSections sections driftHistory
  let candidates := sortByKey builder.candidates
  let allKept := builder.sections.map fun answer => answer.2.map fun _ => true
  let (text, measured) := renderPack builder.sections allKept [] fixed budget
  if measured ≤ budget.limit then .ok text
  else if candidates.length = 0 then .error (.new fixed.symbolName budget measured)
  else
    -- The candidates before the cut are kept, and the others dropped worst first.
    let renderPrefix (prefixLen : Nat) : List Char × Nat :=
      renderPack builder.sections (masksOf builder.sections (candidates.take prefixLen))
        ((candidates.drop prefixLen).reverse.map PackCandidate.dropId) fixed budget
    let bestFit := (List.range' 1 candidates.length).foldl
      (fun best prefixLen =>
        let (text, measured) := renderPrefix prefixLen
        if measured ≤ budget.limit then some text else best) none
    match bestFit with
    | some text => .ok text
    | none => .error (.new fixed.symbolName budget (renderPrefix 1).2)

end Egregore
