import Egregore.Base.PointerWalk
import Egregore.TemporalStatus

/-!
# Belief timelines

`query/belief_timeline.rs`: the live agent-authored beliefs that cite a code target, oldest first,
each with the record that supersedes or contradicts it. Timestamps are parsed by `chrono`.
-/

namespace Egregore

open Base

/-- `OBSERVATION_CLASS`. -/
def observationClass : List NodeKind := [.observation, .decision, .failure]

/-- `BELIEF_TIMELINE_ORDERING`. -/
def beliefTimelineOrdering : String :=
  "observed_at, falling back to ingested_at, with record ID as the stable tiebreaker " ++
    "(oldest to newest); records with no usable timestamp sort last"

/-- `BeliefTargetKind`. -/
inductive BeliefTargetKind where
  | symbol | file
  deriving DecidableEq, Repr

/-- `ResolvedBeliefTarget`. -/
structure ResolvedBeliefTarget where
  recordId : String
  kind : BeliefTargetKind
  targetHandle : String
  deriving DecidableEq, Repr

/-- `BeliefStatus`. -/
inductive BeliefStatus where
  | current | superseded | contradicted
  deriving DecidableEq, Repr

/-- `BeliefRelation`. -/
inductive BeliefRelation where
  | supersedes | contradicts
  deriving DecidableEq, Repr

/-- `OrderingBasis`. -/
inductive OrderingBasis where
  | observedAt | ingestedAt | recordId
  deriving DecidableEq, Repr

/-- `BeliefEntry`. -/
structure BeliefEntry where
  recordId : String
  handle : String
  kind : String
  status : BeliefStatus
  relation : Option BeliefRelation
  forwardRecordId : Option String
  forwardHandle : Option String
  agentId : Option String
  agentKind : Option String
  sessionId : Option String
  observedAt : Option String
  ingestedAt : Option String
  orderingBasis : OrderingBasis
  confidence : Option String
  evidenceHandles : List String
  deriving DecidableEq, Repr

/-- `BeliefDiagnostic`. -/
structure BeliefDiagnostic where
  code : String
  message : String
  recordId : Option String
  recordIds : List String
  forwardRecordId : Option String
  deriving DecidableEq, Repr

/-- `BeliefTimeline`. -/
structure BeliefTimeline where
  target : ResolvedBeliefTarget
  ordering : String
  entryCount : Nat
  entries : List BeliefEntry
  diagnostics : List BeliefDiagnostic
  deriving DecidableEq, Repr

namespace TemporalResolver

/-- `immediate_superseders`. -/
def immediateSuperseders (resolver : TemporalResolver) (id : String) : List TemporalReference :=
  ((resolver.supersededBy.getD id ∅).toList).map resolver.reference

/-- `contradicting_records`. -/
def contradictingRecords (resolver : TemporalResolver) (id : String) : List TemporalReference :=
  ((resolver.contradicts.getD id ∅).toList).map resolver.reference

end TemporalResolver

/-- `is_belief_record`. -/
def isBeliefRecord (node : NodeRecord) : Bool :=
  observationClass.contains node.kind && (node.field "agent_id").isSome

/-- `live_belief_key`. -/
def liveBeliefKey (latest : StrMap NodeRecord) (name : String) : Option String :=
  latest[name]?.bind fun node => if isBeliefRecord node then some name else none

/-- `ordering_key`. -/
def orderingKey (chrono : Chrono) (node : NodeRecord) : Nat × Option Instant × OrderingBasis :=
  match ((node.field "observed_at").map chrono.parseFromRfc3339).bind Except.toOption with
  | some timestamp => (0, some timestamp, .observedAt)
  | none =>
      match ((node.field "ingested_at").map chrono.parseFromRfc3339).bind Except.toOption with
      | some timestamp => (0, some timestamp, .ingestedAt)
      | none => (1, none, .recordId)

/-- The order of the members. -/
def beliefOrder (chrono : Chrono) : NodeRecord → NodeRecord → Ordering :=
  compareLex (compareOn fun node => (orderingKey chrono node).1)
    (compareLex (fun first second =>
        optionOrder compare (orderingKey chrono first).2.1 (orderingKey chrono second).2.1)
      fun first second => byteOrder first.id second.id)

section Timeline

variable (records : List GraphRecord) (target : ResolvedBeliefTarget)

/-- `latest`: the last version of each live node. -/
def latestNodes : StrMap NodeRecord :=
  let liveness := Liveness.new records
  records.foldl (insertEntry fun record =>
    match record with
    | .node node => if liveness.deleted node.id then none else some (node.id, node)
    | _ => none) ∅

/-- `edge_cited`: the sources of the current edges into the target. -/
def edgeCited : StrSet :=
  let liveness := Liveness.new records
  (records.zipIdx.filterMap fun entry =>
    match entry.1 with
    | .edge edge =>
        if edge.target = target.recordId ∧ liveness.deleted edge.id = false ∧
            liveness.isLatestEdgeVersion edge.id entry.2 then
          some edge.source
        else none
    | _ => none).foldl (fun cited source => cited.insert source) ∅

/-- `members`, in the order of their IDs. -/
def beliefMembers : List NodeRecord :=
  let cited := edgeCited records target
  ((latestNodes records).toList.map Prod.snd).filter fun node =>
    isBeliefRecord node &&
      ((node.evidenceLinks.getD []).any (fun link => link.targetRecordId = some target.recordId) ||
        cited.contains node.id)

/-- The live belief that supersedes or else contradicts a belief. -/
def forwardPointer (id : String) : Option (String × BeliefRelation) :=
  let resolver := TemporalResolver.build records
  let latest := latestNodes records
  match (resolver.immediateSuperseders id).findSome? fun reference =>
      liveBeliefKey latest reference.recordId with
  | some next => some (next, .supersedes)
  | none =>
      ((resolver.contradictingRecords id).findSome? fun reference =>
        liveBeliefKey latest reference.recordId).map fun other => (other, .contradicts)

/-- `forward`. -/
def forwardPointers : StrMap (String × BeliefRelation) :=
  (beliefMembers records target).foldl (insertEntry fun member =>
    (forwardPointer records member.id).map fun pointer => (member.id, pointer)) ∅

/-- The superseders of a member up to the first that is a live belief. -/
def danglingNames (id : String) : List (String × String) :=
  let latest := latestNodes records
  (((TemporalResolver.build records).immediateSuperseders id).takeWhile fun reference =>
    (liveBeliefKey latest reference.recordId).isNone).map fun reference => (id, reference.recordId)

/-- `dangling`. -/
def danglingPointers : Std.ExtTreeSet (String × String) pairOrder :=
  ((beliefMembers records target).flatMap fun member =>
    danglingNames records member.id).foldl (fun dangling pair => dangling.insert pair) ∅

/-- The forward supersession of a node. -/
def supersessionPointer (forward : StrMap (String × BeliefRelation)) (cursor : String) :
    Option String :=
  match forward[cursor]? with
  | some (next, .supersedes) => some next
  | _ => none

/-- `cycle_members`. A walk visits each pointer once. -/
def beliefCycles : StrSet :=
  let forward := forwardPointers records target
  ((beliefMembers records target).flatMap fun member =>
    cycleFrom (supersessionPointer forward) (forward.size + 1) [] member.id).foldl
      (fun members seen => members.insert seen) ∅

/-- The entry of a member. -/
def beliefEntry (chrono : Chrono) (resolver : TemporalResolver)
    (forward : StrMap (String × BeliefRelation)) (node : NodeRecord) : BeliefEntry where
  recordId := node.id
  handle := resolver.getHandle node.id
  kind := node.kind.asStr
  status :=
    match forward[node.id]? with
    | some (_, .supersedes) => .superseded
    | some (_, .contradicts) => .contradicted
    | none => .current
  relation := forward[node.id]?.map Prod.snd
  forwardRecordId := forward[node.id]?.map Prod.fst
  forwardHandle := forward[node.id]?.map fun pointer => resolver.getHandle pointer.1
  agentId := node.field "agent_id"
  agentKind := node.field "agent_kind"
  sessionId := node.field "session_id"
  observedAt := node.field "observed_at"
  ingestedAt := node.field "ingested_at"
  orderingBasis := (orderingKey chrono node).2.2
  confidence := node.field "confidence"
  evidenceHandles := [target.targetHandle]

/-- The diagnostic of the supersession cycles. -/
def cycleMembersDiagnostic (members : List String) : BeliefDiagnostic where
  code := "supersession_cycle"
  message := "supersession claims form a cycle; each member reports superseded with its " ++
    "immediate forward record"
  recordId := none
  recordIds := members
  forwardRecordId := none

/-- The diagnostic of a superseder that is no live belief. -/
def danglingDiagnostic (pair : String × String) : BeliefDiagnostic where
  code := "dangling_superseded_by"
  message := "author-written supersession claim names a record that is not a live agent-authored " ++
    "observation-class record"
  recordId := some pair.1
  recordIds := []
  forwardRecordId := some pair.2

/-- `belief_timeline`. -/
def beliefTimeline (chrono : Chrono) : BeliefTimeline :=
  let resolver := TemporalResolver.build records
  let forward := forwardPointers records target
  let cycles := beliefCycles records target
  let members := (beliefMembers records target).insertionSort
    fun first second => beliefOrder chrono first second ≠ .gt
  let entries := members.map (beliefEntry target chrono resolver forward)
  { target := target
    ordering := beliefTimelineOrdering
    entryCount := entries.length
    entries := entries
    diagnostics :=
      (if cycles.isEmpty then [] else [cycleMembersDiagnostic cycles.toList]) ++
        (danglingPointers records target).toList.map danglingDiagnostic }

end Timeline

end Egregore
