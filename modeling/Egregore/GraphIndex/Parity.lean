import Egregore.GraphIndex.ClosureSpec
import Egregore.Query.Deps

/-!
# Sidecar index against the cold scan

Hydration keeps exactly the records a selector takes, in file order. Two results
rest on it: when a closure pulls in every tombstone of the records it holds, and
when `symbol_dependencies` answers alike over the hydrated and the cold records. The
first is `closureOffsets_tombstoneComplete_iff`, the second
`symbolDependencies_hydrated_iff`; both are for any graph that the build accepts.
-/

namespace Egregore

open Base

section Hydration

/-- With ascending offsets, a wanted offset is that of a wanted line. -/
theorem at_offset_iff {lines : List Line}
    (ascending : lines.Pairwise fun line later => line.offset < later.offset)
    {line : Line} (member : line ∈ lines) {wanted : Line → Prop} :
    At lines wanted line.offset ↔ wanted line := by
  have nodup : (lines.map Line.offset).Nodup := by
    rw [List.Nodup, List.pairwise_map]
    exact ascending.imp Nat.ne_of_lt
  constructor
  · rintro ⟨other, member', same, holds⟩
    exact List.inj_on_of_nodup_map nodup member' member same ▸ holds
  · exact fun holds => ⟨line, member, rfl, holds⟩

/-- Reading the lines at their offsets returns their records. -/
private theorem mapM_offsets {read : Nat → Option GraphRecord} (lines : List Line)
    (reads : ∀ line ∈ lines, read line.offset = some line.record) :
    (lines.map Line.offset).mapM read = some (lines.map Line.record) := by
  induction lines with
  | nil => rfl
  | cons line rest ih =>
      simp [reads line (by simp), ih fun other member => reads other (List.mem_cons_of_mem _ member)]

variable {serde : SerdeJson} {index : GraphIndex} {bytes : Bytes} {selector : Selector}

open Classical in
/-- A closure's offsets are those of the lines its selector takes, in file order. -/
theorem closureOffsets_eq (built : BuiltFrom serde index bytes) (targeted : selector ≠ .whole) :
    index.closureOffsets serde selector bytes =
      some (((locatedLines serde bytes).filter fun line =>
        selector.Takes ((locatedLines serde bytes).map Line.record) line.record).map
          Line.offset) := by
  obtain ⟨offsets, found, ascending, offsets_iff⟩ :=
    closureOffsetsIn_eq (memView_indexed built) targeted
  have fileOrder : (((locatedLines serde bytes).filter fun line =>
      selector.Takes ((locatedLines serde bytes).map Line.record) line.record).map
        Line.offset).Pairwise (· < ·) := by
    rw [List.pairwise_map]
    exact (locatedLines_ascending bytes).filter _
  have same : offsets = ((locatedLines serde bytes).filter fun line =>
      selector.Takes ((locatedLines serde bytes).map Line.record) line.record).map Line.offset := by
    refine List.Perm.eq_of_pairwise' ascending fileOrder ?_
    refine (List.perm_ext_iff_of_nodup (ascending.imp Nat.ne_of_lt)
      (fileOrder.imp Nat.ne_of_lt)).mpr fun offset => ?_
    rw [offsets_iff, At, List.mem_map]
    simp only [List.mem_filter, decide_eq_true_eq]
    grind
  rw [GraphIndex.closureOffsets, found, same]

/-- The closure can as well be walked over the located lines. -/
theorem closureOffsets_eq_lineView (built : BuiltFrom serde index bytes)
    (targeted : selector ≠ .whole) :
    index.closureOffsets serde selector bytes =
      (lineView (locatedLines serde bytes)).closureOffsetsIn selector := by
  obtain ⟨offsets, found, ascending, offsets_iff⟩ :=
    closureOffsetsIn_eq (memView_indexed built) targeted
  obtain ⟨offsets', found', ascending', offsets_iff'⟩ :=
    closureOffsetsIn_eq (lineView_indexed (locatedLines_ascending bytes)) targeted
  have same : offsets = offsets' := by
    refine List.Perm.eq_of_pairwise' ascending ascending' ?_
    refine (List.perm_ext_iff_of_nodup (ascending.imp Nat.ne_of_lt)
      (ascending'.imp Nat.ne_of_lt)).mpr fun offset => ?_
    rw [offsets_iff, offsets_iff']
  rw [GraphIndex.closureOffsets, found, found', same]

/-- Hydration from the file is hydration from the lines it was built from. -/
theorem hydrate_eq_lineView (built : BuiltFrom serde index bytes) (targeted : selector ≠ .whole) :
    index.hydrate serde selector bytes =
      ((lineView (locatedLines serde bytes)).closureOffsetsIn selector).bind fun offsets =>
        offsets.mapM (lineView (locatedLines serde bytes)).recordAt := by
  rw [GraphIndex.hydrate, ← closureOffsets_eq_lineView built targeted,
    closureOffsets_eq built targeted, Option.bind_some, Option.bind_some,
    mapM_offsets _ fun line member => readRecordAt_located (List.mem_of_mem_filter member),
    mapM_offsets _ fun line member =>
      (lineView_indexed (locatedLines_ascending bytes)).recordAt line
        (List.mem_of_mem_filter member)]

open Classical in
/-- Hydration keeps the records the selector takes. -/
theorem hydrate_eq (built : BuiltFrom serde index bytes) (targeted : selector ≠ .whole) :
    index.hydrate serde selector bytes =
      some (((locatedLines serde bytes).map Line.record).filter fun record =>
        selector.Takes ((locatedLines serde bytes).map Line.record) record) := by
  rw [GraphIndex.hydrate, closureOffsets_eq built targeted, Option.bind_some,
    mapM_offsets _ fun line member => readRecordAt_located (List.mem_of_mem_filter member),
    List.filter_map]
  rfl

end Hydration

section Sample

/-- A symbol `x` whose call edge `e` was retracted before a node took its id, and
a neighbour's edge `f` that was retracted. -/
def sampleTable : List (String × GraphRecord) := [
  ("\x7b\"record_type\":\"node\",\"id\":\"x\",\"kind\":\"Symbol\",\"schema_version\":1,\"summary\":\"\"\x7d",
    .node { id := "x", kind := .symbol, schemaVersion := 1 }),
  ("\x7b\"record_type\":\"edge\",\"id\":\"e\",\"schema_version\":1,\"label\":\"CALLS\",\"source\":\"x\",\"target\":\"y\",\"summary\":\"\"\x7d",
    .edge { id := "e", schemaVersion := 1, label := .calls, source := "x", target := "y" }),
  ("\x7b\"record_type\":\"tombstone\",\"id\":\"t\",\"schema_version\":1,\"deleted_id\":\"e\",\"summary\":\"\"\x7d",
    .tombstone { id := "t", schemaVersion := 1, deletedId := "e" }),
  ("\x7b\"record_type\":\"node\",\"id\":\"e\",\"kind\":\"Symbol\",\"schema_version\":1,\"summary\":\"\"\x7d",
    .node { id := "e", kind := .symbol, schemaVersion := 1 }),
  ("\x7b\"record_type\":\"edge\",\"id\":\"f\",\"schema_version\":1,\"label\":\"CALLS\",\"source\":\"y\",\"target\":\"z\",\"summary\":\"\"\x7d",
    .edge { id := "f", schemaVersion := 1, label := .calls, source := "y", target := "z" }),
  ("\x7b\"record_type\":\"tombstone\",\"id\":\"u\",\"schema_version\":1,\"deleted_id\":\"f\",\"summary\":\"\"\x7d",
    .tombstone { id := "u", schemaVersion := 1, deletedId := "f" })]

def sampleDigest (_ : Bytes) : Digest := ⟨List.replicate 32 0, by decide⟩

/-- The index of the sample graph. -/
def sampleIndex : GraphIndex :=
  match buildFromBytes (tableSerde sampleTable) sampleDigest (tableGraph sampleTable) with
  | .ok index => index
  | .error _ => ⟨0, sampleDigest [], 0, sampleDigest [], {}⟩

/-- What is evaluated of the rows and of the lines that they take. -/
private theorem sample_evaluated :
    ((sampleTable.map Prod.fst).Nodup ∧
      ∀ row ∈ sampleTable, newline ∉ asBytes row.1 ∧ carriageReturn ∉ asBytes row.1 ∧
        123 ∈ asBytes row.1 ∧ isKnownRecordVersion (recordVersion row.2) = true) ∧
    tableLines 0 sampleTable = [
      ⟨0, sampleTable[0].2⟩, ⟨80, sampleTable[1].2⟩, ⟨186, sampleTable[2].2⟩,
      ⟨272, sampleTable[3].2⟩, ⟨352, sampleTable[4].2⟩, ⟨458, sampleTable[5].2⟩] := by
  decide

/-- The rows of the sample are read as their records. -/
theorem sample_rows : ∀ row ∈ sampleTable, ReadableRow (tableSerde sampleTable) row := by
  intro row member
  obtain ⟨distinct, plain⟩ := sample_evaluated.1
  obtain ⟨oneLine, plain, brace, known⟩ := plain row member
  exact readableRow_tableSerde distinct member oneLine plain (isBlank_of_brace brace) known

/-- The index of a graph, where it can be built. -/
private def builtIndex (serde : SerdeJson) (blake3 : Bytes → Digest) (bytes : Bytes) : GraphIndex :=
  match buildFromBytes serde blake3 bytes with
  | .ok index => index
  | .error _ => ⟨0, sampleDigest [], 0, sampleDigest [], {}⟩

/-- An index that was built without a fault is the one of these bytes. -/
private theorem eq_builtIndex {serde : SerdeJson} {blake3 : Bytes → Digest} {bytes : Bytes}
    (built : ∀ fault, buildFromBytes serde blake3 bytes ≠ .error fault) :
    buildFromBytes serde blake3 bytes = .ok (builtIndex serde blake3 bytes) := by
  unfold builtIndex
  cases result : buildFromBytes serde blake3 bytes with
  | ok index => rfl
  | error fault => exact absurd result (built fault)

-- Nothing of the graph is to be indexed to see that `sampleIndex` is its index.
attribute [local irreducible] buildFromBytes in
/-- The sample index is that of the sample graph. -/
private theorem sample_eq_builtIndex :
    sampleIndex = builtIndex (tableSerde sampleTable) sampleDigest (tableGraph sampleTable) :=
  rfl

/-- Building it goes through. -/
theorem sample_built :
    buildFromBytes (tableSerde sampleTable) sampleDigest (tableGraph sampleTable) =
      .ok sampleIndex := by
  obtain ⟨body, loop⟩ := buildLines_rows sample_rows 0 1 {}
  rw [← splitInclusive_tableGraph sample_rows] at loop
  rw [sample_eq_builtIndex]
  refine eq_builtIndex fun fault failed => ?_
  rw [buildFromBytes, loop] at failed
  cases failed

/-- The lines of the sample, with their offsets. -/
theorem sample_located :
    locatedLines (tableSerde sampleTable) (tableGraph sampleTable) = [
      ⟨0, sampleTable[0].2⟩, ⟨80, sampleTable[1].2⟩, ⟨186, sampleTable[2].2⟩,
      ⟨272, sampleTable[3].2⟩, ⟨352, sampleTable[4].2⟩, ⟨458, sampleTable[5].2⟩] := by
  rw [locatedLines, splitInclusive_tableGraph sample_rows, locate_rows sample_rows]
  exact sample_evaluated.2

/-- The sample is a graph of the current tree. -/
theorem sample_current : sampleIndex.body.hasTemporalHistory = false := by
  rw [hasTemporalHistory_of_built (builtFrom_of_build sample_built), sample_located]
  rfl

end Sample

section Tombstones

/-- With the line of a node or edge the offsets hold the line of every tombstone
that deletes its id. -/
def TombstoneComplete (lines : List Line) (offsets : List Nat) : Prop :=
  ∀ line ∈ lines, line.offset ∈ offsets → ∀ id, line.record.writes id = true →
    ∀ tombstone ∈ lines, tombstone.record.deletes id = true → tombstone.offset ∈ offsets

/-- Every tombstone of an edge taken without its tombstones is taken for another
reason: for its own id, for its deleted id, or for a version of the edge that is
incident to an anchor or climbed. -/
def TombstonesReached (records : List GraphRecord) (selector : Selector) : Prop :=
  ∀ edge, GraphRecord.edge edge ∈ records →
    (∃ id, selector.Widens records id ∧ (GraphRecord.edge edge).touches id = true) →
    ∀ tombstone, GraphRecord.tombstone tombstone ∈ records → tombstone.deletedId = edge.id →
      selector.Covers records edge.id ∨ selector.Covers records tombstone.id ∨
        ∃ version, selector.Retires records version ∧ version.id = edge.id

/-- The tombstones of what a selector takes are taken exactly when they are reached. -/
private theorem takes_closed_iff (records : List GraphRecord) (selector : Selector) :
    (∀ record ∈ records, selector.Takes records record → ∀ id, record.writes id = true →
        ∀ tombstone ∈ records, tombstone.deletes id = true → selector.Takes records tombstone) ↔
      TombstonesReached records selector := by
  constructor
  · rintro closed edge recorded ⟨id, widened, touching⟩ tombstone recorded' deletes
    have taken := closed _ recorded (Or.inr (Or.inr (Or.inl ⟨id, widened, touching⟩))) edge.id
      (by simp [GraphRecord.writes]) _ recorded' (by simp [GraphRecord.deletes, deletes])
    rcases taken with covered | ⟨id', covered, deletes'⟩ | ⟨_, _, impossible⟩ |
      ⟨version, retired, impossible | deletes'⟩
    · exact Or.inr (Or.inl covered)
    · have same : tombstone.deletedId = id' := by simpa [GraphRecord.deletes] using deletes'
      exact Or.inl (deletes ▸ same ▸ covered)
    · simp [GraphRecord.touches] at impossible
    · cases impossible
    · have same : tombstone.deletedId = version.id := by
        simpa [GraphRecord.deletes] using deletes'
      exact Or.inr (Or.inr ⟨version, retired, same.symm.trans deletes⟩)
  · intro reached record recorded taken id written tombstone recorded' deletes
    have same := GraphRecord.id_of_writes written
    have noDeletion : ∀ other, record.deletes other = false := fun _ =>
      GraphRecord.not_deletes_of_writes written
    rcases taken with covered | ⟨other, -, impossible⟩ | ⟨other, widened, touching⟩ |
      ⟨edge, retired, rfl | impossible⟩
    · exact Or.inr (Or.inl ⟨id, same ▸ covered, deletes⟩)
    · simp [noDeletion] at impossible
    · cases record with
      | edge edge =>
          cases tombstone with
          | tombstone tombstone =>
              have deleted : tombstone.deletedId = edge.id :=
                (by simpa [GraphRecord.deletes] using deletes : tombstone.deletedId = id).trans
                  same.symm
              rcases reached edge recorded ⟨other, widened, touching⟩ tombstone recorded' deleted
                with covered | covered | ⟨version, retired, version_id⟩
              · exact Or.inr (Or.inl ⟨edge.id, covered, by simp [GraphRecord.deletes, deleted]⟩)
              · exact Or.inl covered
              · exact Or.inr (Or.inr (Or.inr ⟨version, retired,
                  Or.inr (by simp [GraphRecord.deletes, deleted, version_id])⟩))
          | _ => simp [GraphRecord.deletes] at deletes
      | _ => simp [GraphRecord.touches] at touching
    · have deletes : tombstone.deletes edge.id = true := by rwa [← same] at deletes
      exact Or.inr (Or.inr (Or.inr ⟨edge, retired, Or.inr deletes⟩))
    · simp [noDeletion] at impossible

/-- A closure is tombstone-complete exactly when the tombstones of its raw edges
are reached for another reason. -/
theorem closureOffsets_tombstoneComplete_iff {serde : SerdeJson} {blake3 : Bytes → Digest}
    {bytes : Bytes} {index : GraphIndex} {selector : Selector}
    (built : buildFromBytes serde blake3 bytes = .ok index) (targeted : selector ≠ .whole) :
    ∃ offsets, index.closureOffsets serde selector bytes = some offsets ∧
      (TombstoneComplete (locatedLines serde bytes) offsets ↔
        TombstonesReached ((locatedLines serde bytes).map Line.record) selector) := by
  classical
  refine ⟨_, closureOffsets_eq (builtFrom_of_build built) targeted, ?_⟩
  have taken : ∀ line ∈ locatedLines serde bytes,
      (line.offset ∈ ((locatedLines serde bytes).filter fun line =>
          selector.Takes ((locatedLines serde bytes).map Line.record) line.record).map Line.offset ↔
        selector.Takes ((locatedLines serde bytes).map Line.record) line.record) := by
    intro line member
    have here : At (locatedLines serde bytes)
        (fun line => selector.Takes ((locatedLines serde bytes).map Line.record) line.record)
        line.offset ↔ _ := at_offset_iff (locatedLines_ascending bytes) member
    rw [← here]
    simp only [At, List.mem_map, List.mem_filter, decide_eq_true_eq]
    grind
  rw [← takes_closed_iff, TombstoneComplete]
  constructor
  · intro complete record recorded takes id written tombstone recorded' deletes
    obtain ⟨line, member, rfl⟩ := List.mem_map.mp recorded
    obtain ⟨line', member', rfl⟩ := List.mem_map.mp recorded'
    exact (taken line' member').mp
      (complete line member ((taken line member).mpr takes) id written line' member' deletes)
  · intro closed line member here id written line' member' deletes
    exact (taken line' member').mpr (closed _ (List.mem_map_of_mem member)
      ((taken line member).mp here) id written _ (List.mem_map_of_mem member') deletes)

/-- On the sample graph the closure of `x` holds the edge `f` of its neighbour
without the tombstone of `f`. -/
theorem sample_closureOffsets_incomplete :
    ¬ ∀ (serde : SerdeJson) (blake3 : Bytes → Digest) (bytes : Bytes) (index : GraphIndex)
        (selector : Selector) (offsets : List Nat),
      buildFromBytes serde blake3 bytes = .ok index → selector ≠ .whole →
      index.closureOffsets serde selector bytes = some offsets →
      TombstoneComplete (locatedLines serde bytes) offsets := by
  intro complete
  have found : sampleIndex.closureOffsets (tableSerde sampleTable) (.byId "x")
      (tableGraph sampleTable) = some [0, 80, 186, 352] := by
    rw [closureOffsets_eq_lineView (builtFrom_of_build sample_built) (by decide), sample_located]
    decide
  have closed := complete (tableSerde sampleTable) sampleDigest (tableGraph sampleTable) sampleIndex
    (.byId "x") [0, 80, 186, 352] sample_built (by decide) found
  rw [sample_located] at closed
  exact absurd (closed ⟨352, sampleTable[4].2⟩ (by decide) (by decide) "f" (by decide)
    ⟨458, sampleTable[5].2⟩ (by decide) (by decide)) (by decide)

/-- The equivalence for a selector of the sample. -/
theorem sample_closureOffsets_tombstoneComplete_iff :
    ∃ offsets, sampleIndex.closureOffsets (tableSerde sampleTable) (.byKind "Symbol")
        (tableGraph sampleTable) = some offsets ∧
      (TombstoneComplete (locatedLines (tableSerde sampleTable) (tableGraph sampleTable)) offsets ↔
        TombstonesReached ((locatedLines (tableSerde sampleTable) (tableGraph sampleTable)).map
          Line.record) (.byKind "Symbol")) :=
  closureOffsets_tombstoneComplete_iff sample_built (by decide)

end Tombstones

section Dependencies

variable {records : List GraphRecord} {anchorId : String}

/-- A selector by ID widens to what it covers. -/
theorem widens_byId_iff {id : String} :
    (Selector.byId anchorId).Widens records id ↔ (Selector.byId anchorId).Covers records id := by
  constructor
  · rintro (⟨-, seeded⟩ | ⟨-, child, seeded | ⟨climbs, seed, seeded, above⟩, parent⟩)
    · exact Or.inl seeded
    · exact Or.inr ⟨rfl, child, seeded, .single parent⟩
    · exact Or.inr ⟨climbs, seed, seeded, above.tail parent⟩
  · rintro (seeded | ⟨climbs, seed, seeded, above⟩)
    · exact Or.inl ⟨rfl, seeded⟩
    · rcases Relation.ReflTransGen.cases_tail above with same | ⟨child, below, parent⟩
      · exact Or.inl ⟨rfl, same ▸ seeded⟩
      · exact Or.inr ⟨climbs, child, Or.inr ⟨climbs, seed, seeded, below⟩, parent⟩

/-- It takes a node that it covers. -/
theorem takes_byId_node_iff {node : NodeRecord} :
    (Selector.byId anchorId).Takes records (.node node) ↔
      (Selector.byId anchorId).Covers records node.id := by
  simp [Selector.Takes, GraphRecord.deletes, GraphRecord.touches]

/-- It takes an edge that it covers, or one at a covered end. -/
theorem takes_byId_edge_iff {edge : EdgeRecord} :
    (Selector.byId anchorId).Takes records (.edge edge) ↔
      (Selector.byId anchorId).Covers records edge.id ∨
        (Selector.byId anchorId).Covers records edge.source ∨
        (Selector.byId anchorId).Covers records edge.target := by
  have retired : (Selector.byId anchorId).Retires records edge →
      (Selector.byId anchorId).Covers records edge.source ∨
        (Selector.byId anchorId).Covers records edge.target := by
    rintro ⟨-, ⟨-, anchor, anchored, rfl | rfl⟩ | ⟨-, covered, -⟩⟩
    · exact Or.inl (Or.inl (Or.inl anchored))
    · exact Or.inr (Or.inl (Or.inl anchored))
    · exact Or.inr covered
  simp only [Selector.Takes, GraphRecord.id_edge, GraphRecord.deletes, GraphRecord.touches,
    widens_byId_iff, Bool.or_eq_true, decide_eq_true_eq, Bool.false_eq_true, and_false,
    exists_false, false_or, or_false, GraphRecord.edge.injEq]
  constructor
  · rintro (covered | ⟨id, covered, rfl | rfl⟩ | ⟨other, retires, rfl⟩)
    · exact Or.inl covered
    · exact Or.inr (Or.inl covered)
    · exact Or.inr (Or.inr covered)
    · exact Or.inr (retired retires)
  · rintro (covered | covered | covered)
    · exact Or.inl covered
    · exact Or.inr (Or.inl ⟨_, covered, Or.inl rfl⟩)
    · exact Or.inr (Or.inl ⟨_, covered, Or.inr rfl⟩)

/-- No line outside the anchor's neighbourhood decides an edge of the anchor.
Take the last line of an edge id that touches the neighbourhood, where that line is
a dependency edge of the anchor and the id is not itself a neighbourhood id: with
no tombstone of the id after it no edge line of the id follows, and with a
tombstone after it, unless an edge line follows, no node line of the id follows
the last tombstone. -/
def DecidedInView (records : List GraphRecord) (anchorId : String) : Prop :=
  ∀ before edge after, records = before ++ .edge edge :: after →
    isDependencyEdge anchorId edge = true →
    ¬ (Selector.byId anchorId).Covers records edge.id →
    (∀ later, GraphRecord.edge later ∈ after → later.id = edge.id →
      ¬ (Selector.byId anchorId).Covers records later.source ∧
        ¬ (Selector.byId anchorId).Covers records later.target) →
    ((∀ record ∈ after, record.deletes edge.id = false) →
      ∀ record ∈ after, record.writesEdge edge.id = false) ∧
    ((∃ record ∈ after, record.deletes edge.id = true) →
      (∀ record ∈ after, record.writesEdge edge.id = false) →
      unanswered (GraphRecord.deletes edge.id) (GraphRecord.writesNode edge.id) after = true)

variable (untimed : ∀ record ∈ records, record.temporal = none)

include untimed in
/-- Liveness by ID is a deletion without a later write. -/
theorem deleted_eq_unanswered (id : String) :
    (Liveness.new records).deleted id =
      unanswered (GraphRecord.deletes id) (GraphRecord.writes id) records := by
  have noTemporal : Liveness.temporalId records id = false := by
    rw [Liveness.temporalId, List.any_eq_false]
    intro record member
    simp [untimed record member]
  rw [Liveness.deleted_new, noTemporal]
  rfl

/-- A dependency starts at the anchor. -/
private theorem isDependencyEdge_source {edge : EdgeRecord}
    (dependency : isDependencyEdge anchorId edge = true) : edge.source = anchorId := by
  simp only [isDependencyEdge, Bool.and_eq_true, decide_eq_true_eq] at dependency
  exact dependency.1.1

/-- The outcome of an id whose last edge line, or last visible one, splits the slice. -/
private theorem outcomeOf_split {before after : List GraphRecord} {edge : EdgeRecord}
    (split : records = before ++ .edge edge :: after)
    (untimed : ∀ record ∈ records, record.temporal = none)
    (last : ∀ record ∈ after, record.writesEdge edge.id = false) :
    outcomeOf records anchorId edge.id =
      if !unanswered (GraphRecord.deletes edge.id) (GraphRecord.writesNode edge.id) after &&
          isDependencyEdge anchorId edge then
        some (dependencyOutcome (liveById (Liveness.new records) records) edge)
      else none := by
  have latest : lastEvent (GraphRecord.writesEdge edge.id) records = some (.edge edge) := by
    rw [split]
    exact lastEvent_split (by simp [GraphRecord.writesEdge]) last
  have deleted : (Liveness.new records).deleted edge.id =
      unanswered (GraphRecord.deletes edge.id) (GraphRecord.writesNode edge.id) after := by
    rw [deleted_eq_unanswered untimed]
    subst split
    rw [unanswered_split (by simp [GraphRecord.writes]) (by simp [GraphRecord.deletes])]
    have nodesOnly : ∀ record ∈ after, record.writes edge.id = record.writesNode edge.id := by
      intro record member
      rw [Bool.eq_iff_iff, GraphRecord.writes_eq_true, last record member]
      simp
    exact unanswered_congr nodesOnly
  simp [outcomeOf, latest, deleted]

/-- An id whose last edge line does not run from the anchor has no outcome. -/
private theorem outcomeOf_eq_none {edgeId : String}
    (elsewhere : ∀ edge, lastEvent (GraphRecord.writesEdge edgeId) records = some (.edge edge) →
      isDependencyEdge anchorId edge = false) :
    outcomeOf records anchorId edgeId = none := by
  unfold outcomeOf
  cases latest : lastEvent (GraphRecord.writesEdge edgeId) records with
  | none => rfl
  | some record =>
      cases record with
      | edge edge => simp [elsewhere edge latest]
      | _ => rfl

/-- The anchor is covered. -/
theorem covers_anchor : (Selector.byId anchorId).Covers records anchorId := Or.inl (Or.inl rfl)

/-- So is the other end of an edge from it. -/
theorem covers_target {edge : EdgeRecord} (recorded : GraphRecord.edge edge ∈ records)
    (source : edge.source = anchorId) : (Selector.byId anchorId).Covers records edge.target :=
  Or.inl (Or.inr ⟨rfl, anchorId, rfl, edge, recorded, Or.inl ⟨source, rfl⟩⟩)

/-- No live record carries the id: there is no record of it, or it is deleted. -/
def NotLive (records : List GraphRecord) (id : String) : Prop :=
  (∀ record ∈ records, record.id ≠ id) ∨ (Liveness.new records).deleted id = true

/-- The lane finds no anchor when it is not live. -/
theorem anchorOf_eq_none_iff : anchorOf records anchorId = none ↔ NotLive records anchorId := by
  rw [anchorOf, getElem?_liveById, NotLive]
  by_cases gone : (Liveness.new records).deleted anchorId
  · simp [gone]
  · simp [gone, lastEvent]

open Classical in
/-- Whether the closure of `ById(anchorId)` keeps a record. -/
noncomputable def inView (records : List GraphRecord) (anchorId : String) (record : GraphRecord) :
    Bool :=
  (Selector.byId anchorId).Takes records record

/-- The view of an anchor is what its selector takes. -/
theorem inView_iff {record : GraphRecord} :
    inView records anchorId record = true ↔ (Selector.byId anchorId).Takes records record := by
  simp [inView]

/-- The records the closure of `ById(anchorId)` keeps. -/
noncomputable def viewOf (records : List GraphRecord) (anchorId : String) : List GraphRecord :=
  records.filter (inView records anchorId)

section View

include untimed

/-- Nothing in the view has temporal fields. -/
private theorem untimed_view : ∀ record ∈ viewOf records anchorId, record.temporal = none :=
  fun record member => untimed record (List.mem_of_mem_filter member)

/-- A neighbourhood id is live in the view exactly when it is live in the graph,
and its record is the same. -/
theorem liveById_view {id : String} (covered : (Selector.byId anchorId).Covers records id) :
    (liveById (Liveness.new (viewOf records anchorId)) (viewOf records anchorId))[id]? =
      (liveById (Liveness.new records) records)[id]? := by
  have kept : ∀ record ∈ records,
      record.id = id ∨ record.deletes id = true →
        (Selector.byId anchorId).Takes records record := by
    rintro record - (same | deletes)
    · exact Or.inl (same ▸ covered)
    · exact Or.inr (Or.inl ⟨id, covered, deletes⟩)
  have deleted : (Liveness.new (viewOf records anchorId)).deleted id =
      (Liveness.new records).deleted id := by
    rw [deleted_eq_unanswered (untimed_view untimed), deleted_eq_unanswered untimed, viewOf]
    refine unanswered_filter records fun record member relevant => ?_
    refine inView_iff.mpr (kept record member ?_)
    rcases relevant with deletes | writes
    · exact Or.inr deletes
    · exact Or.inl (GraphRecord.id_of_writes writes)
  rw [getElem?_liveById, getElem?_liveById, deleted]
  congr 1
  rw [viewOf]
  refine lastEvent_filter records fun record member same => ?_
  exact inView_iff.mpr (kept record member (Or.inl (by simpa using same)))

/-- The view finds the anchor that all records find. -/
theorem anchorOf_view : anchorOf (viewOf records anchorId) anchorId = anchorOf records anchorId :=
  liveById_view untimed covers_anchor

/-- A dependency edge reads the same live target in the view. -/
private theorem dependencyOutcome_view {edge : EdgeRecord}
    (recorded : GraphRecord.edge edge ∈ records) (source : edge.source = anchorId) :
    dependencyOutcome
        (liveById (Liveness.new (viewOf records anchorId)) (viewOf records anchorId)) edge =
      dependencyOutcome (liveById (Liveness.new records) records) edge := by
  simp only [dependencyOutcome, liveById_view untimed (covers_target recorded source)]

/-- An id of the neighbourhood keeps all its lines, so its outcome. -/
private theorem outcomeOf_view_of_covered {edgeId : String}
    (covered : (Selector.byId anchorId).Covers records edgeId) :
    outcomeOf (viewOf records anchorId) anchorId edgeId = outcomeOf records anchorId edgeId := by
  have latest : lastEvent (GraphRecord.writesEdge edgeId) (viewOf records anchorId) =
      lastEvent (GraphRecord.writesEdge edgeId) records := by
    rw [viewOf]
    refine lastEvent_filter records fun record member written => ?_
    have same := GraphRecord.id_of_writes (GraphRecord.writes_eq_true.mpr (Or.inr written))
    exact inView_iff.mpr (Or.inl (same ▸ covered))
  have deleted : (Liveness.new (viewOf records anchorId)).deleted edgeId =
      (Liveness.new records).deleted edgeId := by
    rw [deleted_eq_unanswered (untimed_view untimed), deleted_eq_unanswered untimed, viewOf]
    refine unanswered_filter records fun record member relevant => ?_
    rcases relevant with deletes | writes
    · exact inView_iff.mpr (Or.inr (Or.inl ⟨edgeId, covered, deletes⟩))
    · exact inView_iff.mpr (Or.inl (GraphRecord.id_of_writes writes ▸ covered))
  unfold outcomeOf
  simp only [latest, deleted]
  cases found : lastEvent (GraphRecord.writesEdge edgeId) records with
  | none => rfl
  | some record =>
      cases record with
      | edge edge =>
          by_cases dependency : isDependencyEdge anchorId edge
          · have reads := dependencyOutcome_view untimed (mem_of_lastEvent found).1
              (isDependencyEdge_source dependency)
            simp only [reads]
          · simp [dependency]
      | _ => rfl

/-- What the view and the graph report for an id split at its last visible line. -/
private theorem outcomes_at_split {before after : List GraphRecord} {edge : EdgeRecord}
    (split : records = before ++ .edge edge :: after)
    (dependency : isDependencyEdge anchorId edge = true)
    (outside : ¬ (Selector.byId anchorId).Covers records edge.id)
    (hidden : ∀ later, GraphRecord.edge later ∈ after → later.id = edge.id →
      ¬ (Selector.byId anchorId).Covers records later.source ∧
        ¬ (Selector.byId anchorId).Covers records later.target) :
    outcomeOf (viewOf records anchorId) anchorId edge.id =
        (if after.any (GraphRecord.deletes edge.id) then none
        else some (dependencyOutcome (liveById (Liveness.new records) records) edge)) ∧
      outcomeOf records anchorId edge.id =
        (if after.any (GraphRecord.writesEdge edge.id) then none
        else if unanswered (GraphRecord.deletes edge.id) (GraphRecord.writesNode edge.id) after
        then none
        else some (dependencyOutcome (liveById (Liveness.new records) records) edge)) := by
  have recorded : GraphRecord.edge edge ∈ records := by
    rw [split]
    simp
  have source := isDependencyEdge_source dependency
  have retires : (Selector.byId anchorId).Retires records edge :=
    ⟨recorded, Or.inl ⟨rfl, anchorId, rfl, Or.inl source⟩⟩
  have invisible : ∀ later, GraphRecord.edge later ∈ after → later.id = edge.id →
      ¬ (Selector.byId anchorId).Takes records (.edge later) := by
    intro later member same
    rw [takes_byId_edge_iff, same]
    have := hidden later member same
    tauto
  refine ⟨?_, ?_⟩
  · have taken : inView records anchorId (.edge edge) = true :=
      inView_iff.mpr (Or.inr (Or.inr (Or.inr ⟨edge, retires, Or.inl rfl⟩)))
    have viewSplit : viewOf records anchorId =
        before.filter (inView records anchorId) ++
          .edge edge :: after.filter (inView records anchorId) := by
      rw [viewOf]
      conv_lhs => arg 2; rw [split]
      rw [List.filter_append, List.filter_cons_of_pos taken]
    have noEdges : ∀ record ∈ after.filter (inView records anchorId),
        record.writesEdge edge.id = false := by
      intro record member
      obtain ⟨member, visible⟩ := List.mem_filter.mp member
      cases record with
      | edge later =>
          by_contra written
          have same : later.id = edge.id := by simpa [GraphRecord.writesEdge] using written
          exact invisible later member same (inView_iff.mp visible)
      | _ => rfl
    have noNodes : ∀ record ∈ after.filter (inView records anchorId),
        record.writesNode edge.id = false := by
      intro record member
      obtain ⟨member, visible⟩ := List.mem_filter.mp member
      cases record with
      | node node =>
          by_contra written
          have same : node.id = edge.id := by simpa [GraphRecord.writesNode] using written
          exact outside (same ▸ takes_byId_node_iff.mp (inView_iff.mp visible))
      | _ => rfl
    have tombstones : (after.filter (inView records anchorId)).any (GraphRecord.deletes edge.id) =
        after.any (GraphRecord.deletes edge.id) := by
      rw [Bool.eq_iff_iff, List.any_eq_true, List.any_eq_true]
      constructor
      · rintro ⟨record, member, deletes⟩
        exact ⟨record, List.mem_of_mem_filter member, deletes⟩
      · rintro ⟨record, member, deletes⟩
        exact ⟨record, List.mem_filter.mpr ⟨member,
          inView_iff.mpr (Or.inr (Or.inr (Or.inr ⟨edge, retires, Or.inr deletes⟩)))⟩, deletes⟩
    rw [outcomeOf_split viewSplit (untimed_view untimed) noEdges,
      unanswered_of_no_answer noNodes, tombstones, dependencyOutcome_view untimed recorded source,
      dependency]
    cases after.any (GraphRecord.deletes edge.id) <;> rfl
  · by_cases rewritten : after.any (GraphRecord.writesEdge edge.id)
    · rw [if_pos rewritten]
      refine outcomeOf_eq_none fun later latest => ?_
      have some_ : ∃ record ∈ after, record.writesEdge edge.id = true := by
        simpa using rewritten
      rw [split, ← List.singleton_append, ← List.append_assoc,
        lastEvent_append_of_exists some_] at latest
      obtain ⟨member, written⟩ := mem_of_lastEvent latest
      by_contra dependency'
      have same : later.id = edge.id := by simpa [GraphRecord.writesEdge] using written
      have from_anchor := isDependencyEdge_source
        (by simpa using dependency' : isDependencyEdge anchorId later = true)
      exact (hidden later member same).1 (from_anchor ▸ covers_anchor)
    · have noEdges : ∀ record ∈ after, record.writesEdge edge.id = false := by
        simpa using rewritten
      rw [if_neg rewritten, outcomeOf_split split untimed noEdges, dependency]
      cases unanswered (GraphRecord.deletes edge.id) (GraphRecord.writesNode edge.id) after <;> rfl

/-- The view reports every outcome of the graph exactly when no hidden line
decides one. -/
theorem outcomes_view_iff :
    (∀ edgeId, outcomeOf (viewOf records anchorId) anchorId edgeId =
        outcomeOf records anchorId edgeId) ↔ DecidedInView records anchorId := by
  constructor
  · intro same before edge after split dependency outside hidden
    obtain ⟨inView, inGraph⟩ := outcomes_at_split untimed split dependency outside hidden
    have agree := inView.symm.trans ((same edge.id).trans inGraph)
    refine ⟨fun silent record member => ?_, fun ⟨tombstone, member, deletes⟩ noEdges => ?_⟩
    · have noTombstone : after.any (GraphRecord.deletes edge.id) = false := by simpa using silent
      rw [noTombstone] at agree
      by_contra written
      have rewritten : after.any (GraphRecord.writesEdge edge.id) = true :=
        List.any_eq_true.mpr ⟨record, member, by simpa using written⟩
      simp [rewritten] at agree
    · have retracted : after.any (GraphRecord.deletes edge.id) = true :=
        List.any_eq_true.mpr ⟨tombstone, member, deletes⟩
      have kept : after.any (GraphRecord.writesEdge edge.id) = false := by simpa using noEdges
      by_contra live
      simp [retracted, kept, live] at agree
  · intro decided edgeId
    by_cases covered : (Selector.byId anchorId).Covers records edgeId
    · exact outcomeOf_view_of_covered untimed covered
    · have shown : ∀ edge, GraphRecord.edge edge ∈ records →
          inView records anchorId (.edge edge) = false → isDependencyEdge anchorId edge = false := by
        intro edge recorded invisible
        by_contra dependency
        have source := isDependencyEdge_source
          (by simpa using dependency : isDependencyEdge anchorId edge = true)
        rw [Bool.eq_false_iff, Ne, inView_iff, takes_byId_edge_iff, source] at invisible
        exact invisible (Or.inr (Or.inl covers_anchor))
      by_cases visible : ∃ record ∈ records,
          (record.writesEdge edgeId && inView records anchorId record) = true
      · obtain ⟨before, record, after, split, here, later⟩ := exists_last_split visible
        simp only [Bool.and_eq_true] at here
        cases record with
        | edge edge =>
            obtain rfl : edge.id = edgeId := by simpa [GraphRecord.writesEdge] using here.1
            have invisible : ∀ other, GraphRecord.edge other ∈ after → other.id = edge.id →
                inView records anchorId (.edge other) = false := by
              intro other member same
              simpa [GraphRecord.writesEdge, same] using later _ member
            by_cases dependency : isDependencyEdge anchorId edge
            · have hidden : ∀ later, GraphRecord.edge later ∈ after → later.id = edge.id →
                  ¬ (Selector.byId anchorId).Covers records later.source ∧
                    ¬ (Selector.byId anchorId).Covers records later.target := by
                intro other member same
                have := invisible other member same
                rw [Bool.eq_false_iff, Ne, inView_iff, takes_byId_edge_iff] at this
                tauto
              obtain ⟨inView_, inGraph⟩ := outcomes_at_split untimed split dependency covered hidden
              obtain ⟨unmoved, unrevived⟩ := decided before edge after split dependency covered hidden
              rw [inView_, inGraph]
              by_cases retracted : after.any (GraphRecord.deletes edge.id)
              · by_cases rewritten : after.any (GraphRecord.writesEdge edge.id)
                · simp [retracted, rewritten]
                · have revived := unrevived (by simpa using retracted) (by simpa using rewritten)
                  simp [retracted, revived]
              · have silent : ∀ record ∈ after, record.deletes edge.id = false := by
                  simpa using retracted
                have kept : after.any (GraphRecord.writesEdge edge.id) = false := by
                  simpa using unmoved silent
                have live : unanswered (GraphRecord.deletes edge.id)
                    (GraphRecord.writesNode edge.id) after = false := by
                  by_contra gone
                  obtain ⟨record, member, deletes⟩ := exists_of_unanswered (by simpa using gone)
                  simp [silent record member] at deletes
                simp [retracted, kept, live]
            · have viewSplit : viewOf records anchorId =
                  before.filter (inView records anchorId) ++
                    .edge edge :: after.filter (inView records anchorId) := by
                rw [viewOf]
                conv_lhs => arg 2; rw [split]
                rw [List.filter_append, List.filter_cons_of_pos here.2]
              have viewLatest : lastEvent (GraphRecord.writesEdge edge.id)
                  (viewOf records anchorId) = some (.edge edge) := by
                rw [viewSplit]
                refine lastEvent_split here.1 fun other member => ?_
                obtain ⟨member, shown⟩ := List.mem_filter.mp member
                simpa [shown] using later other member
              rw [outcomeOf_eq_none, outcomeOf_eq_none]
              · intro other latest
                by_cases rewritten : ∃ record ∈ after, record.writesEdge edge.id = true
                · rw [split, ← List.singleton_append, ← List.append_assoc,
                    lastEvent_append_of_exists rewritten] at latest
                  obtain ⟨member, written⟩ := mem_of_lastEvent latest
                  have same : other.id = edge.id := by simpa [GraphRecord.writesEdge] using written
                  exact shown other (by rw [split]; simp [member]) (invisible other member same)
                · have noEdges : ∀ record ∈ after, record.writesEdge edge.id = false := by
                    simpa using rewritten
                  rw [split, lastEvent_split here.1 noEdges] at latest
                  obtain rfl := GraphRecord.edge.inj (Option.some.inj latest)
                  simpa using dependency
              · intro other latest
                obtain rfl := GraphRecord.edge.inj (Option.some.inj (viewLatest.symm.trans latest))
                simpa using dependency
        | _ => simp [GraphRecord.writesEdge] at here
      · rw [outcomeOf_eq_none, outcomeOf_eq_none]
        · intro edge latest
          obtain ⟨member, written⟩ := mem_of_lastEvent latest
          refine shown edge member ?_
          by_contra here
          exact visible ⟨_, member, by simpa [written] using here⟩
        · intro edge latest
          obtain ⟨member, written⟩ := mem_of_lastEvent latest
          obtain ⟨member, here⟩ := List.mem_filter.mp member
          exact absurd ⟨_, member, by simp [written, here]⟩ visible

end View

open Classical in
/-- Over an indexed current-tree graph, the dependencies of a record read through
the index are those of the cold scan exactly when the record is not live or no
line outside its neighbourhood decides one of its edges. -/
theorem symbolDependencies_hydrated_iff {serde : SerdeJson} {blake3 : Bytes → Digest}
    {bytes : Bytes} {index : GraphIndex}
    (built : buildFromBytes serde blake3 bytes = .ok index)
    (current : index.body.hasTemporalHistory = false) (anchorId : String) :
    ∃ records hydrated,
      coldScan serde bytes = some (.ok records) ∧
      index.hydrate serde (.byId anchorId) bytes = some hydrated ∧
      (symbolDependencies hydrated anchorId = symbolDependencies records anchorId ↔
        NotLive records anchorId ∨ DecidedInView records anchorId) := by
  have builtFrom := builtFrom_of_build built
  have untimed : ∀ record ∈ (locatedLines serde bytes).map Line.record, record.temporal = none := by
    intro record recorded
    obtain ⟨line, member, rfl⟩ := List.mem_map.mp recorded
    rw [hasTemporalHistory_of_built builtFrom, List.any_eq_false] at current
    have unsignalled := current line member
    cases recorded : line.record with
    | node node => simp_all [recordIsHistorySignal, GraphRecord.temporal]
    | edge edge => simp_all [recordIsHistorySignal, GraphRecord.temporal]
    | tombstone tombstone => rfl
  refine ⟨_, viewOf ((locatedLines serde bytes).map Line.record) anchorId, builtFrom.cold, ?_, ?_⟩
  · rw [hydrate_eq builtFrom (by simp)]
    rfl
  · rw [symbolDependencies_eq_iff, anchorOf_view untimed, anchorOf_eq_none_iff,
      outcomes_view_iff untimed]
    simp

/-- On the sample graph the node that revives the id of `e` lies outside the
neighbourhood of `x`: the cold scan reports the edge, the index does not. -/
theorem sample_symbolDependencies_differ :
    ¬ ∀ (serde : SerdeJson) (blake3 : Bytes → Digest) (bytes : Bytes) (index : GraphIndex)
        (anchorId : String) (records hydrated : List GraphRecord),
      buildFromBytes serde blake3 bytes = .ok index → index.body.hasTemporalHistory = false →
      coldScan serde bytes = some (.ok records) →
      index.hydrate serde (.byId anchorId) bytes = some hydrated →
      symbolDependencies hydrated anchorId = symbolDependencies records anchorId := by
  intro parity
  have hydrated : sampleIndex.hydrate (tableSerde sampleTable) (.byId "x")
      (tableGraph sampleTable) = some [sampleTable[0].2, sampleTable[1].2, sampleTable[2].2,
        sampleTable[4].2] := by
    rw [hydrate_eq_lineView (builtFrom_of_build sample_built) (by decide), sample_located]
    decide
  have same := parity (tableSerde sampleTable) sampleDigest (tableGraph sampleTable) sampleIndex "x"
    _ _ sample_built sample_current (builtFrom_of_build sample_built).cold hydrated
  rw [sample_located] at same
  revert same
  decide

/-- The equivalence at a symbol of the sample. -/
theorem sample_symbolDependencies_hydrated_iff :
    ∃ records hydrated,
      coldScan (tableSerde sampleTable) (tableGraph sampleTable) = some (.ok records) ∧
      sampleIndex.hydrate (tableSerde sampleTable) (.byId "x") (tableGraph sampleTable) =
        some hydrated ∧
      (symbolDependencies hydrated "x" = symbolDependencies records "x" ↔
        NotLive records "x" ∨ DecidedInView records "x") :=
  symbolDependencies_hydrated_iff sample_built sample_current "x"

end Dependencies

end Egregore
