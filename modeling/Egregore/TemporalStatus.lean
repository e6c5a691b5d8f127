import Egregore.Base.PathSearch
import Egregore.Query.Liveness
import Egregore.Query.TxDelta

/-!
# Temporal status

`temporal_status.rs`: which records displace which, by the `superseded_by` field,
by inline evidence links and by edges, and from these whether a record is current,
superseded, contradicted or on a cycle of supersessions.
-/

namespace Egregore

open Base

/-- `TemporalReference`. -/
structure TemporalReference where
  recordId : String
  handle : String
  deriving DecidableEq, Repr

/-- The statuses of `resolve_status`. -/
inductive TemporalStatus where
  | current | superseded | contradicted | cycle
  deriving DecidableEq, Repr

def TemporalStatus.asStr : TemporalStatus → String
  | .current => "current"
  | .superseded => "superseded"
  | .contradicted => "contradicted"
  | .cycle => "cycle"

/-- `TemporalResolver`: the direct superseders of an ID, the IDs it stands in contradiction with,
and the node that its handle is taken from. -/
structure TemporalResolver where
  supersededBy : StrMap StrSet
  contradicts : StrMap StrSet
  recordsById : StrMap NodeRecord

/-- The supersessions that a record asserts, from the older ID to the newer. -/
def supersessions : GraphRecord → List (String × String)
  | .node record =>
      (match (record.field "superseded_by").filter (· ≠ "") with
        | some newer => [(record.id, newer)]
        | none => []) ++
      (record.evidenceLinks.getD []).flatMap fun link =>
        match link.targetRecordId with
        | some target => if link.relation = "SUPERSEDES" then [(target, record.id)] else []
        | none => []
  | .edge record => if record.label = .supersedes then [(record.target, record.source)] else []
  | .tombstone _ => []

/-- The contradictions that a record asserts, both ways. -/
def contradictions : GraphRecord → List (String × String)
  | .node record =>
      (record.evidenceLinks.getD []).flatMap fun link =>
        match link.targetRecordId with
        | some target =>
            if link.relation = "CONTRADICTS" then [(record.id, target), (target, record.id)] else []
        | none => []
  | .edge record =>
      if record.label = .contradicts then
        [(record.source, record.target), (record.target, record.source)]
      else []
  | .tombstone _ => []

/-- The record at this position asserts its links: it is not retracted, and it is the latest
version unless it is a snapshot of a history. -/
def Liveness.asserts (liveness : Liveness) : GraphRecord × Nat → Bool
  | (.node node, index) =>
      !(liveness.deleted node.id ||
        (node.temporal.isNone && !liveness.isLatestNodeVersion node.id index))
  | (.edge edge, index) =>
      !(liveness.deleted edge.id || !liveness.isLatestEdgeVersion edge.id index)
  | (.tombstone _, _) => true

/-- The records that assert their links. -/
def assertingRecords (records : List GraphRecord) : List GraphRecord :=
  (records.zipIdx.filter (Liveness.new records).asserts).map Prod.fst

/-- A node record, under its ID. -/
def nodeEntry : GraphRecord → Option (String × NodeRecord)
  | .node record => some (record.id, record)
  | _ => none

/-- The citable handle of a node: its agent and session, its agent, or its source. -/
def NodeRecord.handle (record : NodeRecord) : String :=
  match record.field "agent_id", record.field "session_id" with
  | some agentId, some sessionId => agentId ++ ":" ++ sessionId
  | some agentId, none => agentId
  | none, _ => (record.field "source_handle").getD ""

namespace TemporalResolver

/-- `TemporalResolver::build`. -/
def build (records : List GraphRecord) : TemporalResolver where
  supersededBy := ((assertingRecords records).flatMap supersessions).foldl insertLink ∅
  contradicts := ((assertingRecords records).flatMap contradictions).foldl insertLink ∅
  recordsById := records.foldl (insertEntry nodeEntry) ∅

/-- `get_handle`. -/
def getHandle (resolver : TemporalResolver) (recordId : String) : String :=
  match resolver.recordsById[recordId]? with
  | some record => record.handle
  | none => ""

/-- A reference to a record, with its handle. -/
def reference (resolver : TemporalResolver) (recordId : String) : TemporalReference :=
  ⟨recordId, resolver.getHandle recordId⟩

/-- The direct superseders of a record. Their order is immaterial: heads are a set, and of a cycle
only that there is one is used. -/
def superseders (resolver : TemporalResolver) (id : String) : List String :=
  (resolver.supersededBy[id]?.getD ∅).toList

/-- `resolve_supersession_heads`. A simple path has at most one step for each superseded ID. -/
def resolveSupersessionHeads (resolver : TemporalResolver) (startId : String) :
    Except (List String) (Option StrSet) :=
  if resolver.supersededBy.contains startId then do
    let ends ← pathEnds resolver.superseders (resolver.supersededBy.size + 1) [startId] startId
    let heads := (Std.ExtTreeSet.ofList ends byteOrder).erase startId
    return if heads.isEmpty then none else some heads
  else .ok none

/-- `resolve_status`. -/
def resolveStatus (resolver : TemporalResolver) (id : String) :
    TemporalStatus × List TemporalReference × List TemporalReference :=
  match resolver.resolveSupersessionHeads id with
  | .error _ => (.cycle, [], [])
  | .ok (some heads) =>
      (.superseded, (heads.toList.filter (· ≠ id)).map resolver.reference, [])
  | .ok none =>
      match resolver.contradicts[id]?.filter fun ids => !ids.isEmpty with
      | some contradictingIds =>
          (.contradicted, [], contradictingIds.toList.map resolver.reference)
      | none => (.current, [], [])

end TemporalResolver

end Egregore
