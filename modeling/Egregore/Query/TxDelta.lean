import Egregore.Base.OrderedMap
import Egregore.Base.Paging
import Egregore.SchemaVersion
import Mathlib.Data.List.Destutter
import Mathlib.Data.Prod.Lex
import Mathlib.Order.Nat

/-!
# Transaction-time delta feed

`transaction_delta`: the node versions stamped after a cursor, in pages that end
between instants, with the cursor for the next page. Instants are parsed and
written by `chrono`, which is a parameter.
-/

namespace Egregore

open Base

/-- An instant: seconds, then nanoseconds; a leap second has `10^9` of them and more. -/
abbrev Instant := Lex (Int × Nat)

/-- What the feed uses of `chrono`. -/
structure Chrono where
  parseFromRfc3339 : String → Except String Instant
  /-- `to_rfc3339_opts(SecondsFormat::Secs, true)` of the instant in UTC. -/
  toRfc3339Secs : Instant → String

/-- A serialized field that the record model does not name. -/
def NodeRecord.field (record : NodeRecord) (name : String) : Option String :=
  record.rest.lookup name

/-- `record_transaction_time`. -/
def recordTransactionTime (record : NodeRecord) : Option String :=
  match record.field "transaction_time" with
  | some time => some time
  | none =>
      match record.field "ingested_at" with
      | some time => some time
      | none =>
          if record.field "valid_time_source" = some "inferred_from_transaction_time" then
            record.field "valid_time"
          else record.temporal.map TemporalMetadata.observedAt

def sinceDefaultLimit : Nat := 500

def sinceMaxLimit : Nat := 5000

/-- `TxDeltaEvent`. -/
inductive TxDeltaEvent where
  | added | superseded | retracted
  deriving DecidableEq, Repr

/-- One record on the feed. -/
structure TxDeltaItem where
  record : NodeRecord
  transactionTime : Instant
  event : TxDeltaEvent
  domain : String
  kind : String
  supersededBy : Option String
  deriving DecidableEq

/-- `TxDiagnostic`. -/
structure TxDiagnostic where
  code : String
  message : String
  deriving DecidableEq, Repr

/-- The result of one call. -/
structure TxDeltaResult where
  items : List TxDeltaItem
  nextCursor : String
  upToDate : Bool
  totalMatching : Nat
  returned : Nat
  truncated : Bool
  diagnostics : List TxDiagnostic
  deriving DecidableEq

/-- `TxDeltaError`. -/
structure TxDeltaError where
  code : String
  message : String
  deriving DecidableEq, Repr

/-- `canonical_domains`. -/
def canonicalDomains : List String :=
  [Domain.codeGraph, .agentMemory, .verification, .artifact, .project, .semantic, .userContext,
    .log].map Domain.asStr

/-- `node_domain`. -/
def nodeDomain (kind : NodeKind) : Option String → String
  | none => (domainForNodeKind kind.asStr).asStr
  | some domain => normalizeDomainName domain

/-- `classify_event`. -/
def classifyEvent (kind : NodeKind) (supersededBy : Option String) : TxDeltaEvent :=
  if kind = .retraction then .retracted
  else if supersededBy.isSome then .superseded
  else .added

/-- What the scan makes of one record. -/
inductive TxDeltaScan where
  | outOfScope | nonPositionable | missingTx | invalidTx
  | stamped (item : TxDeltaItem)
  deriving DecidableEq

/-- The body of the scan. `ownerOf` is `owner_of` of the repository index of the slice. -/
def scanRecord (chrono : Chrono) (ownerOf : String → Option String) (wanted : List String)
    (repoId : Option String) (record : GraphRecord) : TxDeltaScan :=
  if repoId.any fun repo => ownerOf record.id ≠ some repo then .outOfScope
  else
    match record with
    | .edge _ => .nonPositionable
    | .tombstone _ => .nonPositionable
    | .node node =>
        let domain := nodeDomain node.kind node.domain
        if !wanted.isEmpty && !wanted.contains domain then .outOfScope
        else
          match recordTransactionTime node with
          | none => .missingTx
          | some text =>
              match chrono.parseFromRfc3339 text with
              | .error _ => .invalidTx
              | .ok time =>
                  .stamped {
                    record := node
                    transactionTime := time
                    event := classifyEvent node.kind (node.field "superseded_by")
                    domain := domain
                    kind := node.kind.asStr
                    supersededBy := node.field "superseded_by" }

/-- The order of the feed: instant, then record ID. -/
def deltaBefore (item later : TxDeltaItem) : Prop :=
  item.transactionTime < later.transactionTime ∨
    item.transactionTime = later.transactionTime ∧ byteOrder item.record.id later.record.id ≠ .gt

instance : DecidableRel deltaBefore := fun _ _ => inferInstanceAs (Decidable (_ ∨ _))

/-- The order of diagnostics. -/
def diagnosticBefore (diagnostic later : TxDiagnostic) : Prop :=
  byteOrder diagnostic.code later.code = .lt ∨
    diagnostic.code = later.code ∧ byteOrder diagnostic.message later.message ≠ .gt

instance : DecidableRel diagnosticBefore := fun _ _ => inferInstanceAs (Decidable (_ ∨ _))

/-- A diagnostic with a count, when there is something to count. -/
def countDiagnostic (count : Nat) (code message : String) : List TxDiagnostic :=
  if count > 0 then [⟨code, toString count ++ message⟩] else []

/-- The edge-case notes of a scan. -/
def deltaDiagnostics (scans : List TxDeltaScan) : List TxDiagnostic :=
  let notes :=
    countDiagnostic (scans.count .missingTx) "missing_transaction_metadata"
      (" node record(s) carry no transaction-time metadata; excluded " ++
        "(no current-state fallback)") ++
    countDiagnostic (scans.count .invalidTx) "invalid_record_transaction_time"
      " record(s) carry an unparseable transaction_time; excluded" ++
    countDiagnostic (scans.count .nonPositionable) "non_positionable_records"
      (" edge/tombstone record(s) carry no transaction-time handle by schema; they cannot appear " ++
        "on the feed") ++
    if scans.any fun scan => scan matches .stamped _ then []
    else [⟨"no_transaction_stamps",
      "no record in scope carries a parseable transaction-time handle; the feed is vacuously " ++
        "up-to-date"⟩]
  (notes.insertionSort diagnosticBefore).destutter (· ≠ ·)

/-- The item of a scan. -/
def TxDeltaScan.item? : TxDeltaScan → Option TxDeltaItem
  | .stamped item => some item
  | _ => none

/-- The requested domains, normalized, or the first unknown one. -/
def wantedDomains : List String → Except TxDeltaError (List String)
  | [] => .ok []
  | domain :: rest => do
      if normalizeDomainName domain ∈ canonicalDomains then
        return normalizeDomainName domain :: (← wantedDomains rest)
      else
        throw ⟨"unknown_domain", "unknown --domain '" ++ domain ++ "'; expected one of: " ++
          String.intercalate ", " canonicalDomains⟩

/-- `transaction_delta`. -/
def transactionDelta (chrono : Chrono) (ownerOf : String → Option String)
    (records : List GraphRecord) (txAfter : String) (domains : List String)
    (repoId : Option String) (limit : Nat) : Except TxDeltaError TxDeltaResult :=
  if limit = 0 ∨ limit > sinceMaxLimit then
    .error ⟨"invalid_limit", "--limit must be between 1 and " ++ toString sinceMaxLimit ++
      " (default " ++ toString sinceDefaultLimit ++ ")"⟩
  else
    match chrono.parseFromRfc3339 txAfter with
    | .error fault =>
        .error ⟨"invalid_cursor", "invalid --tx-after cursor '" ++ txAfter ++ "': " ++ fault ++
          "; expected an RFC 3339 instant"⟩
    | .ok cursor =>
        match wantedDomains domains with
        | .error fault => .error fault
        | .ok wanted =>
            let scans := records.map (scanRecord chrono ownerOf wanted repoId)
            let matching := (scans.filterMap TxDeltaScan.item?).filter fun item =>
              cursor < item.transactionTime
            let ordered := matching.insertionSort deltaBefore
            let items := cutPage TxDeltaItem.transactionTime limit ordered
            .ok {
              items := items
              nextCursor := items.getLast?.elim txAfter fun item =>
                chrono.toRfc3339Secs item.transactionTime
              upToDate := items.isEmpty
              totalMatching := ordered.length
              returned := items.length
              truncated := decide (ordered.length > limit)
              diagnostics := deltaDiagnostics scans }

end Egregore
