import Egregore.LogIdentity

/-!
# Links of log records

The hours and the exemplars that the edges of a scan link to a signature are the ones that its turn
of the loop made, where the hash tells the identities of the scan apart.
-/

namespace Egregore.LogGraph

open Base Redaction

/-! ## Views of records -/

namespace LogRecord

/-- The signature of a record. -/
def asSignature : LogRecord → Option (LogNode ErrorSignaturePayload)
  | .signature node => some node
  | _ => none

/-- The hour of a record. -/
def asBucket : LogRecord → Option (LogNode LogOccurrenceBucketPayload)
  | .bucket node => some node
  | _ => none

/-- The exemplar of a record. -/
def asEvent : LogRecord → Option (LogNode LogEventPayload)
  | .event node => some node
  | _ => none

/-- Whether a record is an edge of a label between two nodes. -/
def links (label : LogEdgeLabel) (originId targetId : String) : LogRecord → Bool
  | .edge _ found origin target _ => found = label && origin = originId && target = targetId
  | _ => false

end LogRecord

section Linked

variable {Payload : Type}

/-- The nodes that edges of a label link to a node. -/
def linked (view : LogRecord → Option (LogNode Payload)) (label : LogEdgeLabel)
    (records : List LogRecord) (targetId : String) : List (LogNode Payload) :=
  (records.filterMap view).filter fun node =>
    records.any (LogRecord.links label node.id targetId)

/-- The hours that are linked to a signature. -/
def hoursOf (records : List LogRecord) (signatureId : String) :
    List (LogNode LogOccurrenceBucketPayload) :=
  linked LogRecord.asBucket .aggregates records signatureId

/-- The exemplars that are linked to a signature. -/
def eventsOf (records : List LogRecord) (signatureId : String) : List (LogNode LogEventPayload) :=
  linked LogRecord.asEvent .fingerprintedAs records signatureId

/-- Of what is made of distinct items, what is made of one. -/
theorem flatMap_only {α β : Type} [DecidableEq α] {items : List α} {make : α → List β} {item : α}
    (distinct : items.Nodup) (member : item ∈ items) :
    (items.flatMap fun other => if other = item then make other else []) = make item := by
  obtain ⟨front, back, rfl⟩ := List.append_of_mem member
  have absent : item ∉ front ++ back := (List.nodup_middle.mp distinct).notMem
  have nothing {part : List α} (outside : item ∉ part) :
      (part.flatMap fun other => if other = item then make other else []) = [] := by
    rw [List.flatMap_eq_nil_iff]
    rintro other listed
    refine if_neg ?_
    rintro rfl
    exact outside listed
  rw [List.mem_append, not_or] at absent
  rw [List.flatMap_append, List.flatMap_cons, nothing absent.1, nothing absent.2, if_pos rfl,
    List.nil_append, List.append_nil]

/-- Where each of some turns links its own nodes to its own target, and both are told apart, the
nodes that are linked to the target of a turn are its own. -/
theorem linked_flatMap {α : Type} [DecidableEq α] {turns : List α} (distinct : turns.Nodup)
    {view : LogRecord → Option (LogNode Payload)} {label : LogEdgeLabel}
    {recordsOf : α → List LogRecord} {nodesOf : α → List (LogNode Payload)} {targetOf : α → String}
    (viewed : ∀ turn, (recordsOf turn).filterMap view = nodesOf turn)
    (links : ∀ turn originId targetId,
      (recordsOf turn).any (LogRecord.links label originId targetId) = true ↔
        originId ∈ (nodesOf turn).map LogNode.id ∧ targetOf turn = targetId)
    (targets : ∀ turn ∈ turns, ∀ other ∈ turns, targetOf turn = targetOf other → turn = other)
    (origins : ∀ turn ∈ turns, ∀ other ∈ turns, ∀ node ∈ nodesOf turn, ∀ node' ∈ nodesOf other,
      node.id = node'.id → turn = other)
    {turn : α} (member : turn ∈ turns) :
    linked view label (turns.flatMap recordsOf) (targetOf turn) = nodesOf turn := by
  have linking (node : LogNode Payload) :
      (turns.flatMap recordsOf).any (LogRecord.links label node.id (targetOf turn)) = true ↔
        ∃ other ∈ turns, node.id ∈ (nodesOf other).map LogNode.id ∧
          targetOf other = targetOf turn := by
    rw [List.any_flatMap, List.any_eq_true]
    exact exists_congr fun other => and_congr_right fun _ => links other node.id (targetOf turn)
  have kept : ∀ other ∈ turns,
      ((nodesOf other).filter fun node =>
        (turns.flatMap recordsOf).any (LogRecord.links label node.id (targetOf turn))) =
        if other = turn then nodesOf other else [] := by
    intro other listed
    split
    · next same =>
        rw [List.filter_eq_self]
        intro node inside
        rw [linking]
        exact ⟨other, listed, List.mem_map_of_mem inside, by rw [same]⟩
    · next differ =>
        rw [List.filter_eq_nil_iff]
        intro node inside found
        obtain ⟨third, listed', ids, sameTarget⟩ := (linking node).mp found
        obtain rfl := targets third listed' turn member sameTarget
        obtain ⟨node', inside', same⟩ := List.mem_map.mp ids
        exact differ (origins other listed third member node inside node' inside' same.symm)
  rw [linked, List.filterMap_flatMap, List.flatMap_congr fun other _ => viewed other,
    List.filter_flatMap, List.flatMap_congr kept]
  exact flatMap_only distinct member

end Linked

/-! ## Records of a turn -/

section Turn

variable (env : LogEnv) (site : ScanSite) (sourceId : String)
  (group : (String × String) × List Occurrence)

/-- A signature has the ID of its key. -/
theorem id_signatureTurn : (signatureTurn env site sourceId group).signature.id =
    signatureIdOf env site group.1 := rfl

/-- Its events are the exemplars up to the cap. -/
theorem events_signatureTurn : (signatureTurn env site sourceId group).events =
    ((exemplars env group.2).take defaultExemplarCap).map
      (eventNode env site (signatureIdOf env site group.1) group.1) := rfl

/-- Its buckets are the hours of its occurrences. -/
theorem buckets_signatureTurn : (signatureTurn env site sourceId group).buckets =
    (hourlyBuckets group.2).toList.map fun bucket =>
      bucketNode env site sourceId (signatureIdOf env site group.1) group.1 bucket.1 bucket.2 := rfl

/-- A turn writes its signature once. -/
theorem asSignature_records :
    ((signatureTurn env site sourceId group).records env site sourceId).filterMap
        LogRecord.asSignature =
      [(signatureTurn env site sourceId group).signature] := by
  rw [SignatureTurn.records, List.filterMap_append, List.filterMap_append,
    List.filterMap_flatMap, List.filterMap_flatMap]
  simp [exemplarRecords, LogRecord.asSignature, logEdge]

/-- It writes its buckets. -/
theorem asBucket_records :
    ((signatureTurn env site sourceId group).records env site sourceId).filterMap
        LogRecord.asBucket =
      (signatureTurn env site sourceId group).buckets := by
  rw [SignatureTurn.records, List.filterMap_append, List.filterMap_append,
    List.filterMap_flatMap, List.filterMap_flatMap]
  simp [List.filterMap_cons, exemplarRecords, LogRecord.asBucket, logEdge]

/-- It writes its events. -/
theorem asEvent_records :
    ((signatureTurn env site sourceId group).records env site sourceId).filterMap
        LogRecord.asEvent =
      (signatureTurn env site sourceId group).events := by
  rw [SignatureTurn.records, List.filterMap_append, List.filterMap_append,
    List.filterMap_flatMap, List.filterMap_flatMap]
  simp [List.filterMap_cons, exemplarRecords, LogRecord.asEvent, logEdge]

/-- A bucket of the turn aggregates its signature. -/
theorem aggregates_records (originId targetId : String) :
    ((signatureTurn env site sourceId group).records env site sourceId).any
        (LogRecord.links .aggregates originId targetId) = true ↔
      originId ∈ (signatureTurn env site sourceId group).buckets.map LogNode.id ∧
        signatureIdOf env site group.1 = targetId := by
  rw [SignatureTurn.records, List.any_append, List.any_append, List.any_flatMap, List.any_flatMap,
    id_signatureTurn]
  simp [exemplarRecords, LogRecord.links, logEdge, ← and_assoc]

/-- An event of the turn is linked to its signature. -/
theorem fingerprintedAs_records (originId targetId : String) :
    ((signatureTurn env site sourceId group).records env site sourceId).any
        (LogRecord.links .fingerprintedAs originId targetId) = true ↔
      originId ∈ (signatureTurn env site sourceId group).events.map LogNode.id ∧
        signatureIdOf env site group.1 = targetId := by
  rw [SignatureTurn.records, List.any_append, List.any_append, List.any_flatMap, List.any_flatMap,
    id_signatureTurn]
  simp [exemplarRecords, LogRecord.links, logEdge, ← and_assoc]

end Turn

/-! ## Records of a scan -/

section Scan

variable {env : LogEnv} {site : ScanSite} {sourceArtifactHash text : String} {retain : Bool}
  {group : (String × String) × List Occurrence}

/-- The records of a scan are its source and the turns of its signatures. -/
theorem records_scanText : (scanText env site sourceArtifactHash text retain).records =
    .source (sourceNode env site (sourceIdOf env site sourceArtifactHash) sourceArtifactHash text) ::
      (signatureGroups (occurrencesOf env site text)).flatMap fun group =>
        (signatureTurn env site (sourceIdOf env site sourceArtifactHash) group).records env site
          (sourceIdOf env site sourceArtifactHash) := by
  rw [scanText, signatureTurns, List.flatMap_map]

/-- A scan has a signature for each group of occurrences. -/
theorem signatures_scanText :
    (scanText env site sourceArtifactHash text retain).records.filterMap LogRecord.asSignature =
      (signatureGroups (occurrencesOf env site text)).map fun group =>
        (signatureTurn env site (sourceIdOf env site sourceArtifactHash) group).signature := by
  rw [records_scanText, List.filterMap_cons_none rfl, List.filterMap_flatMap,
    List.map_eq_flatMap]
  exact List.flatMap_congr fun group _ => asSignature_records env site _ group

/-- Each signature has one turn. -/
theorem nodup_signatureGroups (occurrences : List Occurrence) :
    (signatureGroups occurrences).Nodup := by
  refine Std.ExtTreeMap.distinct_keys_toList.imp fun differ same => differ ?_
  rw [same]
  exact Std.ReflCmp.compare_self

/-- The node of the source is linked to nothing. -/
theorem linked_source {Payload : Type} {view : LogRecord → Option (LogNode Payload)}
    {node : LogNode LogSourcePayload} (unseen : view (.source node) = none) (label : LogEdgeLabel)
    (records : List LogRecord) (targetId : String) :
    linked view label (.source node :: records) targetId = linked view label records targetId := by
  rw [linked, List.filterMap_cons_none unseen]
  rfl

/-- The start of a bucket is a key. -/
theorem mem_keys_of_mem {occurrences : List Occurrence} {start : String} {entry : BucketEntry}
    (member : (start, entry) ∈ (hourlyBuckets occurrences).toList) :
    start ∈ (hourlyBuckets occurrences).keys := by
  rw [← Std.ExtTreeMap.map_fst_toList_eq_keys]
  exact List.mem_map.mpr ⟨(start, entry), member, rfl⟩

variable (apart : TellsApart env.blake3
    (scanIdentities env site (sourceIdOf env site sourceArtifactHash) text))
  (listed : group ∈ signatureGroups (occurrencesOf env site text))

include apart listed

/-- The hours of a signature are the ones that its turn made. -/
theorem hoursOf_scanText :
    hoursOf (scanText env site sourceArtifactHash text retain).records
        (signatureIdOf env site group.1) =
      (signatureTurn env site (sourceIdOf env site sourceArtifactHash) group).buckets := by
  rw [hoursOf, records_scanText, linked_source rfl]
  refine linked_flatMap (nodup_signatureGroups _) (asBucket_records env site _)
    (aggregates_records env site _)
    (fun group listed other listed' => group_eq_of_signatureId apart listed listed') ?_ listed
  intro group listed other listed' bucket made bucket' made' same
  rw [buckets_signatureTurn] at made made'
  obtain ⟨⟨start, kept⟩, hourly, rfl⟩ := List.mem_map.mp made
  obtain ⟨⟨start', kept'⟩, hourly', rfl⟩ := List.mem_map.mp made'
  exact (group_eq_of_bucketId apart listed listed' (mem_keys_of_mem hourly)
    (mem_keys_of_mem hourly') same).1

/-- The exemplars of a signature are the ones that its turn made. -/
theorem eventsOf_scanText :
    eventsOf (scanText env site sourceArtifactHash text retain).records
        (signatureIdOf env site group.1) =
      (signatureTurn env site (sourceIdOf env site sourceArtifactHash) group).events := by
  rw [eventsOf, records_scanText, linked_source rfl]
  refine linked_flatMap (nodup_signatureGroups _) (asEvent_records env site _)
    (fingerprintedAs_records env site _)
    (fun group listed other listed' => group_eq_of_signatureId apart listed listed') ?_ listed
  intro group listed other listed' event made event' made' same
  rw [events_signatureTurn] at made made'
  obtain ⟨exemplar, kept, rfl⟩ := List.mem_map.mp made
  obtain ⟨exemplar', kept', rfl⟩ := List.mem_map.mp made'
  exact group_eq_of_eventId apart listed listed' (List.mem_of_mem_take kept)
    (List.mem_of_mem_take kept') same

end Scan

end Egregore.LogGraph
