import Egregore.Base.Champion
import Egregore.Base.Worklist
import Egregore.Query.TxDelta

/-!
# Symbols as of a transaction time

`symbol_as_of_transaction_time`: per record ID the version the store knew at an instant,
without the ones superseded by then, and without the ones a later commit of the same line of
history no longer carries.
-/

namespace Egregore

open Base

/-- A parsed `DateTime<FixedOffset>`: its instant, and what `to_rfc3339` writes of it. Only the
instant is compared. -/
structure DateTime where
  instant : Instant
  rfc3339 : String
  deriving DecidableEq

/-- What the lane uses of `chrono`. -/
structure ChronoText extends Chrono where
  /-- `to_rfc3339` of what a text is parsed to, in the text's own offset. -/
  toRfc3339 : String → String

/-- `DateTime::parse_from_rfc3339`. -/
def ChronoText.parse (chrono : ChronoText) (text : String) : Except String DateTime :=
  (chrono.parseFromRfc3339 text).map fun instant => ⟨instant, chrono.toRfc3339 text⟩

/-- `Ord::min`. -/
def DateTime.min (time other : DateTime) : DateTime :=
  if other.instant < time.instant then other else time

/-- `Ord::max`. -/
def DateTime.max (time other : DateTime) : DateTime :=
  if other.instant < time.instant then time else other

/-- The node of a record. -/
def GraphRecord.node? : GraphRecord → Option NodeRecord
  | .node record => some record
  | _ => none

/-- `node_valid_time`. -/
def nodeValidTime (node : NodeRecord) : Option String :=
  match node.temporal with
  | some temporal => some temporal.validTime
  | none => node.field "valid_time"

/-- `node_git_commit`. -/
def nodeGitCommit (node : NodeRecord) : Option String := node.temporal.map TemporalMetadata.gitCommit

/-- `CommitOrder`. -/
structure CommitOrder where
  /-- Commit to the length of its longest ancestor chain. -/
  rank : StrMap Nat
  /-- Commit to its direct child commits. -/
  children : StrMap (List String)

/-- Push an element that is not there yet. -/
def pushNew (items : List String) (item : String) : List String :=
  if item ∈ items then items else items ++ [item]

/-- The parents of every commit that a record was observed at. -/
def commitParents (nodes : List NodeRecord) : StrMap (List String) :=
  nodes.foldl
    (fun parents node =>
      match node.temporal with
      | none => parents
      | some temporal =>
          parents.insert temporal.gitCommit
            (temporal.gitParentCommits.foldl pushNew (parents.getD temporal.gitCommit [])))
    ∅

/-- `rank_of`. Calls nest at most as deep as there are commits, which is the fuel. -/
def rankOf (parents : StrMap (List String)) :
    Nat → List String → StrMap Nat → String → Nat × StrMap Nat
  | 0, _, memo, _ => (0, memo)
  | fuel + 1, stack, memo, sha =>
      match memo[sha]? with
      | some rank => (rank, memo)
      | none =>
          if sha ∈ stack then (0, memo)
          else
            let (best, memo) := (parents.getD sha []).foldl
              (fun (best, memo) parent =>
                if parent ∈ parents then
                  let (rank, memo) := rankOf parents fuel (sha :: stack) memo parent
                  (max best (rank + 1), memo)
                else (best, memo))
              (0, memo)
            (best, memo.insert sha best)

/-- The parent links inverted. -/
def commitChildren (parents : StrMap (List String)) : StrMap (List String) :=
  parents.toList.foldl
    (fun children (commit, ps) =>
      ps.foldl
        (fun children parent => children.insert parent (pushNew (children.getD parent []) commit))
        children)
    ∅

/-- `CommitOrder::build`. -/
def CommitOrder.build (records : List GraphRecord) : CommitOrder :=
  let parents := commitParents (records.filterMap GraphRecord.node?)
  { rank := parents.keys.foldl
      (fun memo commit => (rankOf parents (parents.size + 1) [] memo commit).2) ∅
    children := commitChildren parents }

/-- `CommitOrder::rank`. -/
def CommitOrder.rankAt (order : CommitOrder) (sha : String) : Nat := order.rank.getD sha 0

/-- `CommitOrder::strict_descendants`. -/
def CommitOrder.strictDescendants (order : CommitOrder) (sha : String) : List String :=
  let next := fun commit => order.children.getD commit []
  let pushes := (order.children.toList.map fun (_, children) => children.length).sum
  (walk next (fun _ _ => ()) (pushes + (next sha).length) (next sha).reverse [] ()).1

/-- The instants a query asks for. -/
structure TxAxes where
  transaction : Instant
  valid : Option Instant

/-- `TxCandidate`. -/
structure TxCandidate where
  record : NodeRecord
  transactionTime : Instant
  validTime : Option Instant
  tie : Nat
  deriving DecidableEq

/-- What the scan makes of one named record. -/
structure TxScan where
  /-- The transaction time, when the record has one that can be read. -/
  known : Option DateTime := none
  candidate : Option TxCandidate := none
  diagnostics : List TxDiagnostic := []

/-- The text reads as an instant no later than the bound. -/
def ChronoText.notAfter (chrono : ChronoText) (bound : Instant) (text : Option String) : Bool :=
  match text.map chrono.parse with
  | some (.ok time) => time.instant ≤ bound
  | _ => false

/-- Known by the transaction instant, and true at the valid instant when there is one. -/
def TxAxes.inView (axes : TxAxes) (chrono : ChronoText) (node : NodeRecord) : Bool :=
  chrono.notAfter axes.transaction (recordTransactionTime node) &&
    axes.valid.all fun requested => chrono.notAfter requested (nodeValidTime node)

/-- The tie-break of a version: its commit's rank, or its place among the named records. -/
def tieOf (order : CommitOrder) (node : NodeRecord) (index : Nat) : Nat :=
  match nodeGitCommit node with
  | some commit => order.rankAt commit
  | none => index

/-- The body of the scan over the named records. -/
def scanNamed (chrono : ChronoText) (order : CommitOrder) (axes : TxAxes) (node : NodeRecord)
    (index : Nat) : TxScan :=
  let tie := tieOf order node index
  match recordTransactionTime node with
  | none =>
      { diagnostics := [⟨"missing_transaction_metadata", "record '" ++ node.id ++
          "' has no transaction-time metadata; excluded (no current-state fallback)"⟩] }
  | some text =>
      match chrono.parse text with
      | .error _ =>
          { diagnostics := [⟨"invalid_record_transaction_time", "record '" ++ node.id ++
              "' has an unparseable transaction_time '" ++ text ++ "'; excluded"⟩] }
      | .ok known =>
          if axes.transaction < known.instant then { known := some known }
          else
            match axes.valid with
            | none =>
                { known := some known
                  candidate := some ⟨node, known.instant, none, tie⟩ }
            | some requested =>
                match nodeValidTime node with
                | none =>
                    { known := some known
                      diagnostics := [⟨"missing_valid_time", "record '" ++ node.id ++
                        "' has no valid_time but --as-of was supplied; excluded"⟩] }
                | some text =>
                    match chrono.parse text with
                    | .error _ =>
                        { known := some known
                          diagnostics := [⟨"invalid_record_valid_time", "record '" ++ node.id ++
                            "' has an unparseable valid_time '" ++ text ++ "'; excluded"⟩] }
                    | .ok valid =>
                        if requested < valid.instant then { known := some known }
                        else
                          { known := some known
                            candidate := some ⟨node, known.instant, some valid.instant, tie⟩ }

/-- The condition under which a candidate replaces the previous one of its ID. -/
def TxCandidate.replaces (candidate previous : TxCandidate) : Bool :=
  match candidate.validTime, previous.validTime with
  | some valid, some previousValid =>
      toLex (previousValid, toLex (previous.transactionTime, previous.tie)) <
        toLex (valid, toLex (candidate.transactionTime, candidate.tie))
  | _, _ =>
      toLex (previous.transactionTime, previous.tie) <
        toLex (candidate.transactionTime, candidate.tie)

/-- Keep the best candidate of an ID. -/
def keepCandidate (best : StrMap TxCandidate) (candidate : TxCandidate) : StrMap TxCandidate :=
  match best[candidate.record.id]? with
  | none => best.insert candidate.record.id candidate
  | some previous =>
      if candidate.replaces previous then best.insert candidate.record.id candidate else best

/-- The earliest and the latest of some times. -/
def timeBounds (times : List DateTime) : Option (DateTime × DateTime) :=
  times.foldl
    (fun bounds time =>
      match bounds with
      | none => some (time, time)
      | some (least, greatest) => some (least.min time, greatest.max time))
    none

/-- `store_transaction_bounds`. -/
def storeTransactionBounds (chrono : ChronoText) (records : List GraphRecord) :
    Option (DateTime × DateTime) :=
  timeBounds ((records.filterMap GraphRecord.node?).filterMap fun node =>
    (recordTransactionTime node).bind fun text => (chrono.parse text).toOption)

/-- `TxSymbolQuery`. -/
structure TxSymbolQuery where
  records : List NodeRecord
  diagnostics : List TxDiagnostic

/-- `TxQueryError`. -/
structure TxQueryError where
  code : String
  message : String
  deriving DecidableEq, Repr

/-- Diagnostics in their order, each once. -/
def sortedDiagnostics (diagnostics : List TxDiagnostic) : List TxDiagnostic :=
  (diagnostics.insertionSort diagnosticBefore).destutter (· ≠ ·)

/-- The symbols that carry the name. -/
def namedSymbols (records : List GraphRecord) (symbolName : String) : List NodeRecord :=
  (records.filterMap GraphRecord.node?).filter fun node =>
    node.kind = .symbol && node.name = some symbolName

/-- `replacement_effective`. -/
def replacementEffective (chrono : ChronoText) (axes : TxAxes) (records : List GraphRecord)
    (target : String) : Bool :=
  (records.filterMap GraphRecord.node?).any fun node =>
    node.id = target && axes.inView chrono node

/-- `axes_visible`. -/
def axesVisible (chrono : ChronoText) (axes : TxAxes) (node : NodeRecord) : Bool :=
  (nodeGitCommit node).isSome && axes.inView chrono node

/-- The commits of the visible records among some. -/
def visibleCommits (chrono : ChronoText) (axes : TxAxes) (nodes : List NodeRecord) : List String :=
  (nodes.filter (axesVisible chrono axes)).filterMap nodeGitCommit

/-- A descendant of the commit is in the view and has no snapshot of the ID. -/
def removedAfter (order : CommitOrder) (inView snapshots : List String) (commit : String) : Bool :=
  (order.strictDescendants commit).any fun descendant =>
    inView.contains descendant && !snapshots.contains descendant

/-- `span_start`. -/
def spanStart (node : NodeRecord) : Option Nat := (node.field "span.start_line").bind String.toNat?

/-- The order of the answer: start line, then ID. -/
def rowBefore (node later : NodeRecord) : Prop :=
  (spanStart node).elim 0 Nat.succ < (spanStart later).elim 0 Nat.succ ∨
    spanStart node = spanStart later ∧ byteOrder node.id later.id ≠ .gt

instance : DecidableRel rowBefore := fun _ _ => inferInstanceAs (Decidable (_ ∨ _))

/-- `symbol_as_of_transaction_time`, once the instants are read. -/
def symbolAsOfAxes (chrono : ChronoText) (records : List GraphRecord) (symbolName txAsOf : String)
    (axes : TxAxes) (storeTxBounds : Option (DateTime × DateTime)) : TxSymbolQuery :=
  let order := CommitOrder.build records
  let named := namedSymbols records symbolName
  let storeMinTx := (storeTxBounds.or (storeTransactionBounds chrono records)).map Prod.fst
  let beforeFirst := match storeMinTx with
    | some least =>
        if axes.transaction < least.instant then
          [TxDiagnostic.mk "before_first_transaction" ("tx-as-of '" ++ txAsOf ++
            "' precedes the earliest known store transaction ('" ++ least.rfc3339 ++
            "'); empty view")]
        else []
    | none => []
  if named.isEmpty then
    { records := []
      diagnostics := sortedDiagnostics
        (⟨"no_named_symbol", "no Symbol named '" ++ symbolName ++ "' exists in the store"⟩ ::
          beforeFirst) }
  else
    let scans := named.mapIdx fun index node => scanNamed chrono order axes node index
    let nameBounds := timeBounds (scans.filterMap TxScan.known)
    let best := (scans.filterMap TxScan.candidate).foldl keepCandidate ∅
    let early :=
      if !beforeFirst.isEmpty then beforeFirst
      else
        match nameBounds with
        | some (least, _) =>
            if axes.transaction < least.instant then
              [TxDiagnostic.mk "symbol_not_yet_known" ("symbol '" ++ symbolName ++
                "' has no transaction at or before '" ++ txAsOf ++ "' (first known at '" ++
                least.rfc3339 ++ "'); empty view")]
            else []
        | none => []
    let late := match nameBounds with
      | some (_, greatest) =>
          if greatest.instant ≤ axes.transaction then
            [TxDiagnostic.mk "after_latest_transaction" ("tx-as-of '" ++ txAsOf ++
              "' is at or after the latest known transaction for symbol '" ++ symbolName ++ "' ('" ++
              greatest.rfc3339 ++ "'); view reflects all known history")]
          else []
      | none => []
    let superseded := fun node : NodeRecord => (node.field "superseded_by").filter fun target =>
      replacementEffective chrono axes records target
    let supersededNotes := best.toList.filterMap fun (_, candidate) =>
      (superseded candidate.record).map fun target =>
        TxDiagnostic.mk "superseded" ("record '" ++ candidate.record.id ++
          "' is superseded by '" ++ target ++ "', which is effective in the view; excluded")
    let effective := (best.toList.map fun (_, candidate) => candidate.record).filter fun node =>
      (superseded node).isNone
    let inView := visibleCommits chrono axes (records.filterMap GraphRecord.node?)
    let removedFrom := fun node : NodeRecord => (nodeGitCommit node).filter fun commit =>
      removedAfter order inView
        (visibleCommits chrono axes (named.filter fun other => other.id = node.id)) commit
    let absentNotes := effective.filterMap fun node =>
      (removedFrom node).map fun commit =>
        TxDiagnostic.mk "absent_at_transaction" ("symbol '" ++ symbolName ++ "' (record '" ++
          node.id ++ "') was absent at a commit descending from its last snapshot '" ++ commit ++
          "' in the requested view; excluded")
    { records := (effective.filter fun node => (removedFrom node).isNone).insertionSort rowBefore
      diagnostics := sortedDiagnostics
        (scans.flatMap TxScan.diagnostics ++ early ++ late ++ supersededNotes ++ absentNotes) }

/-- `symbol_as_of_transaction_time`. -/
def symbolAsOfTransactionTime (chrono : ChronoText) (records : List GraphRecord)
    (symbolName txAsOf : String) (asOfValidTime : Option String)
    (storeTxBounds : Option (DateTime × DateTime)) : Except TxQueryError TxSymbolQuery :=
  match chrono.parse txAsOf with
  | .error fault =>
      .error ⟨"invalid_timestamp", "invalid --tx-as-of timestamp '" ++ txAsOf ++ "': " ++ fault⟩
  | .ok transaction =>
      match asOfValidTime with
      | none =>
          .ok (symbolAsOfAxes chrono records symbolName txAsOf ⟨transaction.instant, none⟩
            storeTxBounds)
      | some text =>
          match chrono.parse text with
          | .error fault =>
              .error ⟨"invalid_timestamp", "invalid --as-of timestamp '" ++ text ++ "': " ++ fault⟩
          | .ok valid =>
              .ok (symbolAsOfAxes chrono records symbolName txAsOf
                ⟨transaction.instant, some valid.instant⟩ storeTxBounds)

end Egregore
