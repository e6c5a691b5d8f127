import Egregore.Adapters.HistorySpec

/-!
# Retained log observations

`retained_log_observation_records` against the log of the writes. Both are the versions that a
rule of retraction leaves, the last of each observation; the rules differ where a tombstone's
record id is used again, and `retainedLog_iff` says when that shows.
-/

namespace Egregore

open Base Database

section Observations

variable (key : NodeRecord → Option String) (retracted : String → List GraphRecord → Bool)

/-- A version of the same id with the same observation key. -/
def sameObservation (node : NodeRecord) : GraphRecord → Bool
  | .node other => other.id = node.id && (key other = key node && (key node).isSome)
  | _ => false

/-- The node versions that are not retracted by what follows, the last of each observation. -/
def keptObservations : List GraphRecord → List GraphRecord
  | [] => []
  | .node node :: later =>
      if retracted node.id later || later.any (sameObservation key node) then
        keptObservations later
      else .node node :: keptObservations later
  | _ :: later => keptObservations later

/-- What is kept at a position. -/
def keptAt (log : List GraphRecord) (index : Nat) : Option GraphRecord :=
  log[index]?.bind fun record =>
    match record with
    | .node node =>
        if retracted node.id (log.drop (index + 1)) ||
            (log.drop (index + 1)).any (sameObservation key node) then none
        else some (.node node)
    | _ => none

variable {key retracted}

/-- The kept observations are those kept at each position. -/
theorem keptObservations_eq (log : List GraphRecord) :
    keptObservations key retracted log =
      (List.range log.length).filterMap (keptAt key retracted log) := by
  induction log with
  | nil => rfl
  | cons first later ih =>
      have tail : ((List.range later.length).map Nat.succ).filterMap
          (keptAt key retracted (first :: later)) = keptObservations key retracted later := by
        rw [ih, List.filterMap_map]
        rfl
      rw [List.length_cons, List.range_succ_eq_map, List.filterMap_cons, tail]
      cases first with
      | node node =>
          simp only [keptObservations, keptAt, List.getElem?_cons_zero, Option.bind_some,
            Nat.zero_add, List.drop_succ_cons, List.drop_zero]
          split <;> rfl
      | edge edge => rfl
      | tombstone tombstone => rfl

end Observations

/-- A tombstone with this record id. -/
def GraphRecord.reuses (tombstoneId : String) : GraphRecord → Bool
  | .tombstone record => record.id = tombstoneId
  | _ => false

/-- A tombstone of `id` is in the list. -/
def retractedByAny (id : String) (later : List GraphRecord) : Bool :=
  later.any (GraphRecord.deletes id)

/-- A tombstone of `id` whose record id is not used again is in the list. -/
def retractedByKept (id : String) : List GraphRecord → Bool
  | [] => false
  | .tombstone tombstone :: later =>
      tombstone.deletedId = id && !later.any (GraphRecord.reuses tombstone.id) ||
        retractedByKept id later
  | _ :: later => retractedByKept id later

/-- A retraction counts when its tombstone is not overwritten later. -/
theorem retractedByKept_iff {id : String} {later : List GraphRecord} :
    retractedByKept id later = true ↔ ∃ (index : Nat) (tombstone : TombstoneRecord),
      later[index]? = some (.tombstone tombstone) ∧ tombstone.deletedId = id ∧
        ∀ record ∈ later.drop (index + 1), record.reuses tombstone.id = false := by
  induction later with
  | nil => simp [retractedByKept]
  | cons first later ih =>
      -- The tombstone is the first record or one of the others.
      have shifted : (∃ (index : Nat) (tombstone : TombstoneRecord),
          (first :: later)[index]? = some (.tombstone tombstone) ∧ tombstone.deletedId = id ∧
            ∀ record ∈ (first :: later).drop (index + 1), record.reuses tombstone.id = false) ↔
          (∃ tombstone, first = .tombstone tombstone ∧ tombstone.deletedId = id ∧
            ∀ record ∈ later, record.reuses tombstone.id = false) ∨
            retractedByKept id later = true := by
        rw [ih]
        constructor
        · rintro ⟨index, tombstone, found, rest⟩
          cases index with
          | zero =>
              rw [List.getElem?_cons_zero, Option.some.injEq] at found
              exact Or.inl ⟨tombstone, found, rest⟩
          | succ index => exact Or.inr ⟨index, tombstone, found, rest⟩
        · rintro (⟨tombstone, rfl, rest⟩ | ⟨index, tombstone, found, rest⟩)
          · exact ⟨0, tombstone, rfl, rest⟩
          · exact ⟨index + 1, tombstone, found, rest⟩
      rw [shifted]
      cases first with
      | node node => simp [retractedByKept]
      | edge edge => simp [retractedByKept]
      | tombstone tombstone => simp [retractedByKept]

/-- So it is a retraction. -/
theorem retractedByAny_of_kept {id : String} {later : List GraphRecord}
    (retracted : retractedByKept id later = true) : retractedByAny id later = true := by
  obtain ⟨index, tombstone, found, deletes, -⟩ := retractedByKept_iff.mp retracted
  rw [retractedByAny, List.any_eq_true]
  exact ⟨.tombstone tombstone, List.mem_of_getElem? found, by simp [GraphRecord.deletes, deletes]⟩

/-- Where the last version of an observation is followed by a tombstone of its id, one of the
tombstones that follow keeps its record id. -/
def KeepsBoundaries (key : NodeRecord → Option String) (log : List GraphRecord) : Prop :=
  ∀ before node after, log = before ++ .node node :: after →
    after.any (sameObservation key node) = false →
    retractedByAny node.id after = true → retractedByKept node.id after = true

section Compare

variable {key : NodeRecord → Option String} {log : List GraphRecord}

/-- A log keeps its boundaries when its first record does and the rest does. -/
theorem keepsBoundaries_cons {first : GraphRecord} :
    KeepsBoundaries key (first :: log) ↔
      (∀ node, first = .node node → log.any (sameObservation key node) = false →
        retractedByAny node.id log = true → retractedByKept node.id log = true) ∧
      KeepsBoundaries key log := by
  constructor
  · intro keeps
    refine ⟨?_, fun before node after split => ?_⟩
    · rintro node rfl
      exact keeps [] node log rfl
    · exact keeps (first :: before) node after (by rw [split, List.cons_append])
  · rintro ⟨atFirst, keeps⟩ before node after split
    cases before with
    | nil =>
        obtain ⟨rfl, rfl⟩ := List.cons.inj split
        exact atFirst node rfl
    | cons head before =>
        obtain ⟨rfl, rfl⟩ := List.cons.inj split
        exact keeps before node after rfl

/-- The rule that sees fewer tombstones keeps more, and the same exactly when the log keeps its
boundaries. -/
theorem keptObservations_sublist_and_length :
    (keptObservations key retractedByAny log).Sublist (keptObservations key retractedByKept log) ∧
      ((keptObservations key retractedByKept log).length =
        (keptObservations key retractedByAny log).length ↔ KeepsBoundaries key log) := by
  induction log with
  | nil => exact ⟨List.Sublist.refl _, by simp [KeepsBoundaries, keptObservations]⟩
  | cons first log ih =>
      obtain ⟨sublist, length_iff⟩ := ih
      rw [keepsBoundaries_cons, ← length_iff]
      cases first with
      | edge edge => simpa [keptObservations] using sublist
      | tombstone tombstone => simpa [keptObservations] using sublist
      | node node =>
          have shorter := sublist.length_le
          simp only [keptObservations, GraphRecord.node.injEq, forall_eq']
          cases same : log.any (sameObservation key node) with
          | true => simpa using sublist
          | false =>
              cases kept : retractedByKept node.id log with
              | true => simpa [retractedByAny_of_kept kept] using sublist
              | false =>
                  cases any : retractedByAny node.id log with
                  | true =>
                      refine ⟨by simpa using sublist.cons _, ?_⟩
                      simp only [Bool.or_false, Bool.false_eq_true, if_false, if_true,
                        List.length_cons]
                      constructor
                      · intro equal
                        omega
                      · rintro ⟨absurd, -⟩
                        simp at absurd
                  | false => simpa using sublist

/-- The two readings of a retraction keep the same observations exactly when every boundary is
kept. -/
theorem keptObservations_perm_iff :
    (keptObservations key retractedByKept log).Perm (keptObservations key retractedByAny log) ↔
      KeepsBoundaries key log := by
  obtain ⟨sublist, length_iff⟩ := @keptObservations_sublist_and_length key log
  rw [← length_iff]
  refine ⟨List.Perm.length_eq, fun equal => ?_⟩
  rw [sublist.eq_of_length equal.symm]

end Compare

namespace EmbeddedAletheiaSink

variable {env : Aletheia} {sink : EmbeddedAletheiaSink} {log written : List GraphRecord}

section Read

/-- A tombstone of `id` that the index holds is stored at a position after `nodeId`. -/
def IndexedAfter (db : Database) (nodeId : Nat) (id : String) : Prop :=
  ∃ later tombstone seq, nodeId < later ∧ db.getNode later = some (.tombstone tombstone seq) ∧
    tombstone.deletedId = id ∧ lastIdx (Stored.tombstoneOf tombstone.id) db = some later

/-- The boundary of an ID is the highest number of a tombstone that deletes it. -/
theorem foldlM_raiseBoundary {nodeIds : List Nat}
    (stored : ∀ nodeId ∈ nodeIds, ∃ record seq,
      sink.db.getNode nodeId = some (.tombstone record seq)) :
    ∃ boundary, nodeIds.foldlM (sink.raiseBoundary env) ∅ = .ok boundary ∧
      ∀ (id : String) seq, boundary[id]?.any (fun last => seq ≤ last) = true ↔
        ∃ nodeId ∈ nodeIds, ∃ record stamp,
          sink.db.getNode nodeId = some (.tombstone record stamp) ∧ record.deletedId = id ∧
            seq ≤ sink.tombstoneNodeSeqs[nodeId]?.getD 0 := by
  induction nodeIds using List.reverseRecOn with
  | nil => exact ⟨∅, rfl, by simp⟩
  | append_singleton nodeIds last ih =>
      obtain ⟨boundary, folded, holds⟩ := ih
        fun nodeId member => stored nodeId (List.mem_append_left _ member)
      obtain ⟨record, stamp, at_last⟩ := stored last (by simp)
      refine ⟨boundary.insert record.deletedId (boundary[record.deletedId]?.elim
        (sink.tombstoneNodeSeqs[last]?.getD 0) fun current =>
          max current (sink.tombstoneNodeSeqs[last]?.getD 0)), ?_, fun id seq => ?_⟩
      · rw [List.foldlM_append, folded]
        simp [raiseBoundary, at_last, deletedIdOf, bind, Except.bind, pure, Except.pure]
      · have split : (∃ nodeId ∈ nodeIds ++ [last], ∃ record stamp,
            sink.db.getNode nodeId = some (.tombstone record stamp) ∧ record.deletedId = id ∧
              seq ≤ sink.tombstoneNodeSeqs[nodeId]?.getD 0) ↔
            boundary[id]?.any (fun last => seq ≤ last) = true ∨
              record.deletedId = id ∧ seq ≤ sink.tombstoneNodeSeqs[last]?.getD 0 := by
          rw [holds]
          simp only [List.mem_append, List.mem_singleton, or_and_right, exists_or, exists_eq_left]
          apply or_congr_right
          simp only [at_last, Option.some.injEq, StoredNode.tombstone.injEq]
          constructor
          · rintro ⟨_, _, ⟨rfl, -⟩, found⟩
            exact found
          · exact fun found => ⟨record, stamp, ⟨rfl, rfl⟩, found⟩
        rw [split, getElem?_insert_eq]
        by_cases same : record.deletedId = id
        · subst same
          rw [if_pos rfl, Option.any_some]
          cases boundary[record.deletedId]? with
          | none =>
              simp only [Option.any_none, Bool.false_eq_true, true_and, false_or]
              exact decide_eq_true_iff
          | some current =>
              simp only [Option.any_some, decide_eq_true_eq, true_and]
              rw [Option.elim_some]
              omega
        · simp [same]

/-- The boundary of an id lies after the positions that an indexed tombstone of it follows. -/
theorem logTombstoneBoundary_spec (coherent : Coherent env sink) :
    ∃ boundary, sink.logTombstoneBoundary env = .ok boundary ∧
      ∀ nodeId node seq, sink.db.getNode nodeId = some (.node node seq) →
        (boundary[node.id]?.any (fun last => seq.getD 0 ≤ last) = true ↔
          IndexedAfter sink.db nodeId node.id) := by
  have stored : ∀ nodeId ∈ sink.tombstoneIds.toList.map Prod.snd, ∃ record seq,
      sink.db.getNode nodeId = some (.tombstone record seq) := by
    intro nodeId member
    obtain ⟨id, indexed⟩ := mem_tombstoneNodeIds.mp member
    obtain ⟨record, seq, found, -⟩ := tombstone_of_indexed coherent indexed
    exact ⟨record, seq, found⟩
  obtain ⟨boundary, folded, holds⟩ := @foldlM_raiseBoundary env sink _ stored
  refine ⟨boundary, folded, fun nodeId node seq found => ?_⟩
  rw [holds]
  have stamp : sink.db.seqAt nodeId = seq := by
    rw [seqAt, getNode_eq_some_iff.mp found]
    rfl
  obtain ⟨mine, at_node⟩ := coherent.stamped.exists_seqAt (lt_length_of_getNode found)
  have order : ∀ {later record other}, sink.db.getNode later = some (.tombstone record other) →
      sink.tombstoneIds[record.id]? = some later →
      (seq.getD 0 ≤ sink.tombstoneNodeSeqs[later]?.getD 0 ↔ nodeId < later) := by
    intro later record other at_later indexed
    obtain ⟨theirs, at_tombstone⟩ := coherent.stamped.exists_seqAt (lt_length_of_getNode at_later)
    rw [coherent.tombstoneSeqs _ _ indexed, at_tombstone, ← stamp, at_node, Option.getD_some,
      Option.getD_some, ← coherent.stamped.seqAt_lt_iff at_node at_tombstone]
    constructor
    · intro below
      rcases Nat.lt_or_eq_of_le below with less | draw
      · exact less
      · have same : nodeId = later := coherent.stamped.seqAt_injOn (lt_length_of_getNode found)
          (lt_length_of_getNode at_later) (by rw [at_node, at_tombstone, draw])
        rw [same, at_later] at found
        cases found
    · exact Nat.le_of_lt
  constructor
  · rintro ⟨later, member, record, other, at_later, deletes, below⟩
    obtain ⟨id, indexed⟩ := mem_tombstoneNodeIds.mp member
    obtain ⟨record', other', at_later', rfl⟩ := tombstone_of_indexed coherent indexed
    rw [at_later, Option.some.injEq, StoredNode.tombstone.injEq] at at_later'
    obtain ⟨rfl, rfl⟩ := at_later'
    exact ⟨later, record, other, (order at_later indexed).mp below, at_later, deletes,
      (coherent.tombstoneIds _).symm.trans indexed⟩
  · rintro ⟨later, record, other, after, at_later, deletes, last⟩
    have indexed := (coherent.tombstoneIds record.id).trans last
    exact ⟨later, mem_tombstoneNodeIds.mpr ⟨record.id, indexed⟩, record, other, at_later, deletes,
      (order at_later indexed).mpr after⟩

/-- Only log observations and tombstones are stored, without temporal metadata. -/
def LogOnly (db : Database) : Prop :=
  (∀ nodeId node seq, db.getNode nodeId = some (.node node seq) →
    isObservedKind node.kind = true ∧ node.temporal = none) ∧
  ∀ edgeId, db.getEdge edgeId = none

/-- A node version with its number, unless it is at or before the boundary of its ID. -/
def freshObservation (boundary : StrMap Nat) (number : Option Nat) :
    StoredNode → Option (Nat × GraphRecord)
  | .tombstone _ _ => none
  | .node node seq =>
      if boundary[node.id]?.any (fun last => seq.getD 0 ≤ last) then none
      else some (number.getD 0, .node node)

/-- The observations that the read collects: the versions that no indexed tombstone follows. -/
theorem logObservations_spec (coherent : Coherent env sink) (known : sink.db.Known)
    (logOnly : LogOnly sink.db) {active : StrSet}
    (retracted : ∀ id, id ∈ active ↔ sink.db.Suppressed id) {boundary : StrMap Nat}
    (bounded : ∀ nodeId node seq, sink.db.getNode nodeId = some (.node node seq) →
      (boundary[node.id]?.any (fun last => seq.getD 0 ≤ last) = true ↔
        IndexedAfter sink.db nodeId node.id)) :
    ∃ observations, collectM (sink.logObservation env active boundary) (env.getAllNodeIds sink.db) =
        .ok observations ∧ (observations.map Prod.fst).Nodup ∧
      ∀ entry, entry ∈ observations ↔ ∃ nodeId node seq,
        sink.db.getNode nodeId = some (.node node seq) ∧ ¬ IndexedAfter sink.db nodeId node.id ∧
          entry = ((sink.db.seqAt nodeId).getD 0, .node node) := by
  have plain : ∀ {nodeId node seq}, sink.db.getNode nodeId = some (.node node seq) →
      Stored.plainNodeOf node.id (.node (.node node seq)) = true := by
    intro nodeId node seq found
    simp [Stored.plainNodeOf, (logOnly.1 nodeId node seq found).2]
  -- A retracted id has an indexed tombstone after all its versions.
  have after : ∀ {nodeId node seq}, sink.db.getNode nodeId = some (.node node seq) →
      sink.db.Suppressed node.id → IndexedAfter sink.db nodeId node.id := by
    intro nodeId node seq found suppressed
    obtain ⟨later, tombstone, stamp, at_later, deletes, last, fresh⟩ := suppressed
    refine ⟨later, tombstone, stamp, ?_, at_later, deletes, last⟩
    rcases Nat.lt_trichotomy nodeId later with less | rfl | more
    · exact less
    · rw [found] at at_later
      cases at_later
    · refine absurd ⟨nodeId, _, more, getNode_eq_some_iff.mp found, ?_⟩ fresh
      rw [Stored.revives, plain found, Bool.true_or]
  have visits : ∀ nodeId ∈ env.getAllNodeIds sink.db,
      sink.logObservation env active boundary nodeId =
        .ok ((sink.db.getNode nodeId).bind (freshObservation boundary (sink.db.seqAt nodeId))) := by
    intro nodeId member
    rw [(env.getAllNodeIds_perm sink.db).mem_iff, mem_nodeIds, Option.isSome_iff_exists] at member
    obtain ⟨stored, found⟩ := member
    cases stored with
    | tombstone record seq => simp [logObservation, found, freshObservation]
    | node node seq =>
        have stamp : sink.db.seqAt nodeId = seq := by
          rw [seqAt, getNode_eq_some_iff.mp found]
          rfl
        have indexed : sink.nodeLookup.nonTemporal.contains node.id = true := by
          have some_ : ∃ last, lastIdx (Stored.plainNodeOf node.id) sink.db = some last := by
            rw [← Option.ne_none_iff_exists', Ne, lastIdx_eq_none_iff]
            intro none_
            have := none_ _ (List.mem_of_getElem? (getNode_eq_some_iff.mp found))
            rw [plain found] at this
            cases this
          obtain ⟨last, isLast⟩ := some_
          rw [← nonTemporal_eq coherent] at isLast
          rw [Std.ExtTreeMap.contains_eq_isSome_getElem?, isLast]
          rfl
        simp only [logObservation, found, (logOnly.1 nodeId node seq found).1, indexed,
          Bool.not_true, Bool.false_eq_true, if_false, Option.bind_some, stamp, freshObservation]
        split
        · next held =>
            have suppressed := (retracted _).mp (Std.ExtTreeSet.contains_iff_mem.mp held)
            rw [if_pos ((bounded nodeId node seq found).mpr (after found suppressed))]
        · split
          · rfl
          · rw [readNodeRecord_eq_ok known found]
            rfl
  refine ⟨_, collectM_eq_ok visits, ?_, fun entry => ?_⟩
  · refine nodup_map_filterMap (map_seqAt_getAllNodeIds_nodup coherent) fun nodeId _ entry found => ?_
    obtain ⟨stored, -, made⟩ := Option.bind_eq_some_iff.mp found
    cases stored with
    | tombstone record seq => cases made
    | node node seq =>
        rw [freshObservation] at made
        split at made
        · cases made
        · exact (Option.some.inj made) ▸ rfl
  · rw [List.mem_filterMap]
    constructor
    · rintro ⟨nodeId, -, found⟩
      obtain ⟨stored, at_node, made⟩ := Option.bind_eq_some_iff.mp found
      cases stored with
      | tombstone record seq => cases made
      | node node seq =>
          rw [freshObservation] at made
          split at made
          · cases made
          · next inForce =>
              rw [bounded nodeId node seq at_node] at inForce
              exact ⟨nodeId, node, seq, at_node, inForce, (Option.some.inj made).symm⟩
    · rintro ⟨nodeId, node, seq, found, inForce, rfl⟩
      refine ⟨nodeId, ?_, ?_⟩
      · rw [(env.getAllNodeIds_perm sink.db).mem_iff, mem_nodeIds, found]
        rfl
      · rw [found, Option.bind_some]
        rw [← bounded nodeId node seq found] at inForce
        exact if_neg inForce

end Read

section Collapse

variable {toJson : List (String × String) → String}

/-- Where a record is collapsed: its id and observation key. -/
def observationOf (toJson : List (String × String) → String) :
    Nat × GraphRecord → Option (String × String)
  | (_, .node node) => (logObservationKey toJson node).map fun key => (node.id, key)
  | _ => none

/-- What the collapse has kept of the observations met so far. -/
structure Retained.Of (toJson : List (String × String) → String) (met : List (Nat × GraphRecord))
    (retained : Retained) : Prop where
  latest : ∀ key entry, retained.latest[key]? = some entry ↔ entry ∈ met ∧
    observationOf toJson entry = some key ∧
      ∀ other ∈ met, observationOf toJson other = some key → other.1 ≤ entry.1
  covers : ∀ entry ∈ met, ∀ key, observationOf toJson entry = some key →
    ∃ current, retained.latest[key]? = some current
  keyless : retained.keyless = met.filter fun entry => (observationOf toJson entry).isNone

/-- An observation without a key is always retained. -/
theorem Retained.add_of_keyless {retained : Retained} {entry : Nat × GraphRecord}
    (keyless : observationOf toJson entry = none) :
    retained.add toJson entry = { retained with keyless := retained.keyless ++ [entry] } := by
  obtain ⟨seq, record⟩ := entry
  cases record with
  | node node =>
      rw [observationOf, Option.map_eq_none_iff] at keyless
      simp [Retained.add, keyless]
  | edge edge => rfl
  | tombstone tombstone => rfl

/-- One with a key replaces an earlier one. -/
theorem Retained.add_of_key {retained : Retained} {entry : Nat × GraphRecord}
    {key : String × String} (keyed : observationOf toJson entry = some key) :
    retained.add toJson entry =
      if retained.latest[key]?.all (fun current => current.1 ≤ entry.1) then
        { retained with latest := retained.latest.insert key entry }
      else retained := by
  obtain ⟨seq, record⟩ := entry
  cases record with
  | node node =>
      obtain ⟨text, found, rfl⟩ := Option.map_eq_some_iff.mp keyed
      simp only [Retained.add, found]
      cases retained.latest[(node.id, text)]? <;> rfl
  | edge edge => cases keyed
  | tombstone tombstone => cases keyed

/-- Retaining one more observation keeps what the retained ones stand for. -/
theorem Retained.Of.add {met : List (Nat × GraphRecord)} {retained : Retained}
    (kept : Retained.Of toJson met retained) {entry : Nat × GraphRecord}
    (distinct : ∀ other ∈ met, other.1 ≠ entry.1) :
    Retained.Of toJson (met ++ [entry]) (retained.add toJson entry) := by
  cases keyed : observationOf toJson entry with
  | none =>
      rw [Retained.add_of_keyless keyed]
      refine ⟨fun key other => ?_, fun other member key named => ?_,
        by simp [kept.keyless, List.filter_append, keyed]⟩
      · rw [kept.latest]
        simp only [List.mem_append, List.mem_singleton]
        constructor
        · rintro ⟨member, named, greatest⟩
          refine ⟨Or.inl member, named, fun rival inside same => ?_⟩
          rcases inside with old | rfl
          · exact greatest rival old same
          · rw [keyed] at same
            cases same
        · rintro ⟨member | rfl, named, greatest⟩
          · exact ⟨member, named, fun rival old => greatest rival (Or.inl old)⟩
          · rw [keyed] at named
            cases named
      · rcases List.mem_append.mp member with old | new
        · exact kept.covers other old key named
        · rw [List.mem_singleton.mp new, keyed] at named
          cases named
  | some key =>
      rw [Retained.add_of_key keyed]
      have keyless : (met ++ [entry]).filter (fun entry => (observationOf toJson entry).isNone) =
          met.filter fun entry => (observationOf toJson entry).isNone := by
        simp [List.filter_append, keyed]
      split
      · next replaces =>
          -- The new entry is past all those of its key.
          have past : ∀ other ∈ met, observationOf toJson other = some key → other.1 < entry.1 := by
            intro other member named
            obtain ⟨current, held⟩ := kept.covers other member key named
            rw [held, Option.all_some, decide_eq_true_eq] at replaces
            have below := ((kept.latest key current).mp held).2.2 other member named
            exact Nat.lt_of_le_of_ne (Nat.le_trans below replaces) (distinct other member)
          refine ⟨fun other rival => ?_, fun other member other' named => ?_,
            by rw [keyless]; exact kept.keyless⟩
          · rw [getElem?_insert_eq]
            by_cases same : key = other
            · subst same
              rw [if_pos rfl, Option.some.injEq]
              simp only [List.mem_append, List.mem_singleton]
              constructor
              · rintro rfl
                refine ⟨Or.inr rfl, keyed, fun other inside named => ?_⟩
                rcases inside with old | rfl
                · exact Nat.le_of_lt (past other old named)
                · exact Nat.le_refl _
              · rintro ⟨old | rfl, named, greatest⟩
                · have := past rival old named
                  have := greatest entry (Or.inr rfl) keyed
                  omega
                · rfl
            · rw [if_neg same, kept.latest]
              simp only [List.mem_append, List.mem_singleton]
              constructor
              · rintro ⟨member, named, greatest⟩
                refine ⟨Or.inl member, named, fun third inside named' => ?_⟩
                rcases inside with old | rfl
                · exact greatest third old named'
                · rw [keyed, Option.some.injEq] at named'
                  exact absurd named' same
              · rintro ⟨member | rfl, named, greatest⟩
                · exact ⟨member, named, fun third old => greatest third (Or.inl old)⟩
                · rw [keyed, Option.some.injEq] at named
                  exact absurd named same
          · rw [getElem?_insert_eq]
            by_cases same : key = other'
            · exact ⟨entry, if_pos same⟩
            · rw [if_neg same]
              rcases List.mem_append.mp member with old | new
              · exact kept.covers other old other' named
              · rw [List.mem_singleton.mp new, keyed, Option.some.injEq] at named
                exact absurd named same
      · next stays =>
          obtain ⟨current, held, above⟩ : ∃ current, retained.latest[key]? = some current ∧
              entry.1 < current.1 := by
            cases held : retained.latest[key]? with
            | none => simp [held] at stays
            | some current => exact ⟨current, rfl, by simpa [held] using stays⟩
          refine ⟨fun other rival => ?_, fun other member other' named => ?_,
            by rw [keyless]; exact kept.keyless⟩
          · rw [kept.latest]
            simp only [List.mem_append, List.mem_singleton]
            constructor
            · rintro ⟨member, named, greatest⟩
              refine ⟨Or.inl member, named, fun third inside named' => ?_⟩
              rcases inside with old | rfl
              · exact greatest third old named'
              · rw [keyed, Option.some.injEq] at named'
                subst named'
                obtain ⟨inside, named', -⟩ := (kept.latest key current).mp held
                have := greatest current inside named'
                omega
            · rintro ⟨member | rfl, named, greatest⟩
              · exact ⟨member, named, fun third old => greatest third (Or.inl old)⟩
              · rw [keyed, Option.some.injEq] at named
                subst named
                obtain ⟨inside, named', -⟩ := (kept.latest key current).mp held
                have := greatest current (Or.inl inside) named'
                omega
          · rcases List.mem_append.mp member with old | new
            · exact kept.covers other old other' named
            · rw [List.mem_singleton.mp new, keyed, Option.some.injEq] at named
              exact ⟨current, named ▸ held⟩

/-- So the retained observations are those of all that were met. -/
theorem foldl_add_of {observations : List (Nat × GraphRecord)}
    (distinct : (observations.map Prod.fst).Nodup) :
    Retained.Of toJson observations (observations.foldl (Retained.add toJson) {}) := by
  induction observations using List.reverseRecOn with
  | nil => exact ⟨by simp, by simp, rfl⟩
  | append_singleton observations last ih =>
      rw [List.map_append, List.nodup_append] at distinct
      rw [List.foldl_append]
      refine (ih distinct.1).add fun other member => ?_
      exact distinct.2.2 _ (List.mem_map_of_mem member) _ (by simp)

/-- The entries that the collapse leaves. -/
theorem Retained.Of.entries {met : List (Nat × GraphRecord)} {retained : Retained}
    (kept : Retained.Of toJson met retained) (distinct : (met.map Prod.fst).Nodup) :
    (retained.latest.toList.map Prod.snd ++ retained.keyless).Nodup ∧
      ∀ entry, entry ∈ retained.latest.toList.map Prod.snd ++ retained.keyless ↔
        entry ∈ met ∧ ∀ other ∈ met, observationOf toJson other = observationOf toJson entry →
          observationOf toJson entry ≠ none → other.1 ≤ entry.1 := by
  have held : ∀ {key entry}, (key, entry) ∈ retained.latest.toList ↔ entry ∈ met ∧
      observationOf toJson entry = some key ∧
        ∀ other ∈ met, observationOf toJson other = some key → other.1 ≤ entry.1 :=
    fun {key entry} => Std.ExtTreeMap.mem_toList_iff_getElem?_eq_some.trans (kept.latest key entry)
  constructor
  · refine List.Nodup.append ?_ ?_ ?_
    · have keys : (retained.latest.toList.map Prod.fst).Nodup := by
        rw [Std.ExtTreeMap.map_fst_toList_eq_keys]
        exact Std.ExtTreeMap.nodup_keys
      have pairs := List.Nodup.of_map _ keys
      refine pairs.map_on ?_
      rintro ⟨key, entry⟩ member ⟨key', _⟩ member' rfl
      have named := (held.mp member).2.1
      rw [(held.mp member').2.1, Option.some.injEq] at named
      rw [named]
    · rw [kept.keyless]
      exact (List.Nodup.of_map _ distinct).filter _
    · intro entry member member'
      obtain ⟨⟨key, _⟩, inside, rfl⟩ := List.mem_map.mp member
      rw [kept.keyless, List.mem_filter, (held.mp inside).2.1] at member'
      cases member'.2
  · intro entry
    rw [List.mem_append, List.mem_map, kept.keyless, List.mem_filter]
    constructor
    · rintro (⟨⟨key, _⟩, inside, rfl⟩ | ⟨member, keyless⟩)
      · obtain ⟨member, named, greatest⟩ := held.mp inside
        exact ⟨member, fun other inside same _ => greatest other inside (same.trans named)⟩
      · rw [Option.isNone_iff_eq_none] at keyless
        exact ⟨member, fun other _ _ keyed => absurd keyless keyed⟩
    · rintro ⟨member, greatest⟩
      cases named : observationOf toJson entry with
      | none => exact Or.inr ⟨member, rfl⟩
      | some key =>
          refine Or.inl ⟨(key, entry), held.mpr ⟨member, named, fun other inside same => ?_⟩, rfl⟩
          exact greatest other inside (same.trans named.symm) (by simp [named])

end Collapse

section Log

variable {key : NodeRecord → Option String} {db : Database}

/-- What comes after a position is at a later one. -/
theorem mem_drop_iff {log : List GraphRecord} {nodeId : Nat} {record : GraphRecord} :
    record ∈ log.drop (nodeId + 1) ↔ ∃ later, nodeId < later ∧ log[later]? = some record := by
  rw [List.mem_iff_getElem?]
  constructor
  · rintro ⟨offset, found⟩
    rw [List.getElem?_drop] at found
    exact ⟨_, by omega, found⟩
  · rintro ⟨later, after, found⟩
    refine ⟨later - (nodeId + 1), ?_⟩
    have same : nodeId + 1 + (later - (nodeId + 1)) = later := by omega
    rw [List.getElem?_drop, same, found]

/-- The tombstones of the log are those of the database. -/
theorem getElem?_tombstone_iff {nodeId : Nat} {tombstone : TombstoneRecord} :
    (db.map Stored.record)[nodeId]? = some (.tombstone tombstone) ↔
      ∃ seq, db.getNode nodeId = some (.tombstone tombstone seq) := by
  simp only [List.getElem?_map, Option.map_eq_some_iff, getNode_eq_some_iff]
  constructor
  · rintro ⟨object, found, same⟩
    cases object with
    | edge edge => simp [Stored.record] at same
    | node stored =>
        cases stored with
        | node record seq => simp [Stored.record, StoredNode.record] at same
        | tombstone record seq =>
            rw [Stored.record, StoredNode.record, GraphRecord.tombstone.injEq] at same
            exact ⟨seq, same ▸ found⟩
  · rintro ⟨seq, found⟩
    exact ⟨.node (.tombstone tombstone seq), found, rfl⟩

/-- So are the nodes. -/
theorem getElem?_node_iff {nodeId : Nat} {node : NodeRecord} :
    (db.map Stored.record)[nodeId]? = some (.node node) ↔
      ∃ seq, db.getNode nodeId = some (.node node seq) := by
  simp only [List.getElem?_map, Option.map_eq_some_iff, getNode_eq_some_iff]
  constructor
  · rintro ⟨object, found, same⟩
    cases object with
    | edge edge => simp [Stored.record] at same
    | node stored =>
        cases stored with
        | tombstone record seq => simp [Stored.record, StoredNode.record] at same
        | node record seq =>
            rw [Stored.record, StoredNode.record, GraphRecord.node.injEq] at same
            exact ⟨seq, same ▸ found⟩
  · rintro ⟨seq, found⟩
    exact ⟨.node (.node node seq), found, rfl⟩

/-- A stored record reuses an ID when it is a tombstone of it. -/
theorem tombstoneOf_eq_reuses (stored : Stored) (tombstoneId : String) :
    stored.tombstoneOf tombstoneId = stored.record.reuses tombstoneId := by
  match stored with
  | .node (.node record seq) => rfl
  | .node (.tombstone record seq) => rfl
  | .edge edge => rfl

/-- The tombstones that the index holds are those whose record id is not used again. -/
theorem retractedByKept_drop_iff {nodeId : Nat} {id : String} :
    retractedByKept id ((db.map Stored.record).drop (nodeId + 1)) = true ↔
      IndexedAfter db nodeId id := by
  have last : ∀ {later tombstone seq}, db.getNode later = some (.tombstone tombstone seq) →
      (lastIdx (Stored.tombstoneOf tombstone.id) db = some later ↔
        ∀ record ∈ (db.map Stored.record).drop (later + 1), record.reuses tombstone.id = false) := by
    intro later tombstone seq found
    rw [lastIdx_eq_some_iff]
    constructor
    · rintro ⟨_, -, -, silent⟩ record member
      rw [← List.map_drop] at member
      obtain ⟨stored, inside, rfl⟩ := List.mem_map.mp member
      rw [← tombstoneOf_eq_reuses]
      exact silent stored inside
    · intro silent
      refine ⟨_, getNode_eq_some_iff.mp found, by simp [Stored.tombstoneOf], fun stored member => ?_⟩
      rw [tombstoneOf_eq_reuses]
      exact silent _ (by rw [← List.map_drop]; exact List.mem_map_of_mem member)
  rw [retractedByKept_iff]
  constructor
  · rintro ⟨offset, tombstone, found, deletes, silent⟩
    rw [List.getElem?_drop, getElem?_tombstone_iff] at found
    obtain ⟨seq, found⟩ := found
    rw [List.drop_drop] at silent
    exact ⟨_, tombstone, seq, by omega, found, deletes, (last found).mpr silent⟩
  · rintro ⟨later, tombstone, seq, after, found, deletes, isLast⟩
    refine ⟨later - (nodeId + 1), tombstone, ?_, deletes, ?_⟩
    · have same : nodeId + 1 + (later - (nodeId + 1)) = later := by omega
      rw [List.getElem?_drop, same, getElem?_tombstone_iff]
      exact ⟨seq, found⟩
    · have same : nodeId + 1 + (later - (nodeId + 1) + 1) = later + 1 := by omega
      rw [List.drop_drop, same]
      exact (last found).mp isLast

/-- The versions that the collapse leaves, with their sequence numbers. -/
def stampedKept (key : NodeRecord → Option String) (db : Database) : List (Nat × GraphRecord) :=
  (List.range db.length).filterMap fun nodeId =>
    (keptAt key retractedByKept (db.map Stored.record) nodeId).map fun record =>
      ((db.seqAt nodeId).getD 0, record)

/-- Without the numbers, the kept observations of the database are those of the log. -/
theorem map_snd_stampedKept (db : Database) :
    (stampedKept key db).map Prod.snd =
      keptObservations key retractedByKept (db.map Stored.record) := by
  rw [stampedKept, keptObservations_eq, List.map_filterMap, List.length_map]
  congr 1
  funext nodeId
  cases keptAt key retractedByKept (db.map Stored.record) nodeId <;> rfl

/-- No observation is kept twice. -/
theorem stampedKept_nodup (stamped : Stamped db) : (stampedKept key db).Nodup := by
  refine List.Nodup.of_map Prod.fst ?_
  have distinct : ((List.range db.length).map fun nodeId => (db.seqAt nodeId).getD 0).Nodup :=
    List.Nodup.map_on (fun nodeId member other member' same =>
      stamped.seqAt_injOn (List.mem_range.mp member) (List.mem_range.mp member') same)
      List.nodup_range
  refine nodup_map_filterMap distinct fun nodeId _ entry found => ?_
  obtain ⟨record, -, rfl⟩ := Option.map_eq_some_iff.mp found
  rfl

/-- An observation is kept unless a tombstone or an equal observation follows it. -/
theorem mem_stampedKept {entry : Nat × GraphRecord} :
    entry ∈ stampedKept key db ↔ ∃ nodeId node seq, db.getNode nodeId = some (.node node seq) ∧
      ¬ IndexedAfter db nodeId node.id ∧
      (∀ later other stamp, nodeId < later → db.getNode later = some (.node other stamp) →
        ¬ sameObservation key node (.node other) = true) ∧
      entry = ((db.seqAt nodeId).getD 0, .node node) := by
  have silent_iff : ∀ {nodeId : Nat} {node : NodeRecord},
      (((db.map Stored.record).drop (nodeId + 1)).any (sameObservation key node) = false ↔
        ∀ later other stamp, nodeId < later → db.getNode later = some (.node other stamp) →
          ¬ sameObservation key node (.node other) = true) := by
    intro nodeId node
    rw [List.any_eq_false]
    constructor
    · intro silent later other stamp after found
      exact silent _ (mem_drop_iff.mpr ⟨later, after, getElem?_node_iff.mpr ⟨stamp, found⟩⟩)
    · intro silent record member
      obtain ⟨later, after, found⟩ := mem_drop_iff.mp member
      cases record with
      | node other =>
          obtain ⟨stamp, at_later⟩ := getElem?_node_iff.mp found
          exact silent later other stamp after at_later
      | edge edge => exact Bool.false_ne_true
      | tombstone tombstone => exact Bool.false_ne_true
  rw [stampedKept, List.mem_filterMap]
  constructor
  · rintro ⟨nodeId, -, made⟩
    obtain ⟨record, kept, rfl⟩ := Option.map_eq_some_iff.mp made
    obtain ⟨record', found, kept⟩ := Option.bind_eq_some_iff.mp kept
    cases record' with
    | edge edge => cases kept
    | tombstone tombstone => cases kept
    | node node =>
        dsimp only at kept
        split at kept
        · cases kept
        · next free =>
            obtain rfl := Option.some.inj kept
            obtain ⟨seq, at_node⟩ := getElem?_node_iff.mp found
            rw [Bool.or_eq_true, not_or, retractedByKept_drop_iff] at free
            exact ⟨nodeId, node, seq, at_node, free.1,
              silent_iff.mp (Bool.eq_false_iff.mpr free.2), rfl⟩
  · rintro ⟨nodeId, node, seq, at_node, free, silent, rfl⟩
    refine ⟨nodeId, List.mem_range.mpr (lt_length_of_getNode at_node), ?_⟩
    rw [Option.map_eq_some_iff]
    refine ⟨.node node, ?_, rfl⟩
    rw [keptAt, getElem?_node_iff.mpr ⟨seq, at_node⟩, Option.bind_some]
    dsimp only
    rw [if_neg]
    rw [Bool.or_eq_true, not_or, retractedByKept_drop_iff]
    exact ⟨free, Bool.eq_false_iff.mp (silent_iff.mpr silent)⟩

end Log

section Run

variable {toJson : List (String × String) → String}

/-- A log observation or a tombstone, without temporal metadata. -/
def logRecord : GraphRecord → Bool
  | .node node => isObservedKind node.kind && node.temporal.isNone
  | .edge _ => false
  | .tombstone _ => true

/-- Log records have no temporal fields. -/
theorem temporal_of_logRecord {record : GraphRecord} (isLog : logRecord record = true) :
    record.temporal = none := by
  cases record with
  | node node =>
      rw [logRecord, Bool.and_eq_true, Option.isNone_iff_eq_none] at isLog
      exact isLog.2
  | edge edge => cases isLog
  | tombstone tombstone => rfl

/-- A run of log writes leaves only log records. -/
theorem logOnly_of_run (run : WriteRun env log written sink)
    (logs : ∀ record ∈ log, logRecord record = true) : LogOnly sink.db := by
  have plain := fun record member => temporal_of_logRecord (logs record member)
  have inside : ∀ stored ∈ sink.db, logRecord stored.record = true := by
    intro stored member
    refine logs _ (run.sublist.subset ?_)
    rw [← run.records_plain plain]
    exact List.mem_map_of_mem member
  constructor
  · intro nodeId node seq found
    have isLog := inside _ (List.mem_of_getElem? (getNode_eq_some_iff.mp found))
    rw [Stored.record, StoredNode.record, logRecord, Bool.and_eq_true,
      Option.isNone_iff_eq_none] at isLog
    exact isLog
  · intro edgeId
    rw [Option.eq_none_iff_forall_ne_some]
    intro edge found
    cases inside _ (List.mem_of_getElem? (getEdge_eq_some_iff.mp found))

/-- What the read returns: the last version of each observation of which no tombstone whose
record id is kept follows. -/
theorem retainedLogObservationRecords_eq (coherent : Coherent env sink) (known : sink.db.Known)
    (logOnly : LogOnly sink.db) :
    ∃ records, sink.retainedLogObservationRecords env toJson = .ok records ∧
      records.Perm (keptObservations (logObservationKey toJson) retractedByKept
        (sink.db.map Stored.record)) := by
  obtain ⟨active, activeEq, retracted⟩ := activeDeletedIds_spec coherent
  obtain ⟨boundary, boundaryEq, bounded⟩ := logTombstoneBoundary_spec coherent
  obtain ⟨observations, observationsEq, distinct, mem_observations⟩ :=
    logObservations_spec coherent known logOnly retracted bounded
  obtain ⟨nodup, mem_entries⟩ := (@foldl_add_of toJson _ distinct).entries distinct
  have seq_le : ∀ {nodeId other : Nat} {node node' seq seq'},
      sink.db.getNode nodeId = some (.node node seq) →
      sink.db.getNode other = some (.node node' seq') →
      ((sink.db.seqAt nodeId).getD 0 ≤ (sink.db.seqAt other).getD 0 ↔ nodeId ≤ other) := by
    intro nodeId other node node' seq seq' found found'
    obtain ⟨mine, at_node⟩ := coherent.stamped.exists_seqAt (lt_length_of_getNode found)
    obtain ⟨theirs, at_other⟩ := coherent.stamped.exists_seqAt (lt_length_of_getNode found')
    rw [at_node, at_other, Option.getD_some, Option.getD_some, ← Nat.not_lt,
      coherent.stamped.seqAt_lt_iff at_other at_node, Nat.not_lt]
  have entries_perm := (List.perm_ext_iff_of_nodup nodup
    (@stampedKept_nodup (logObservationKey toJson) _ coherent.stamped)).mpr fun entry => by
      rw [mem_entries, mem_stampedKept, mem_observations]
      constructor
      · rintro ⟨⟨nodeId, node, seq, found, free, rfl⟩, greatest⟩
        refine ⟨nodeId, node, seq, found, free, fun later other stamp after at_later same => ?_, rfl⟩
        simp only [sameObservation, Bool.and_eq_true, decide_eq_true_eq] at same
        obtain ⟨named, keys, keyed⟩ := same
        obtain ⟨text, found_key⟩ := Option.isSome_iff_exists.mp keyed
        have below := greatest ((sink.db.seqAt later).getD 0, .node other)
          ((mem_observations _).mpr ⟨later, other, stamp, at_later, ?_, rfl⟩)
          (by simp [observationOf, keys, named]) (by simp [observationOf, found_key])
        · rw [seq_le at_later found] at below
          omega
        · rw [named]
          rintro ⟨last, tombstone, stamp', past, rest⟩
          exact free ⟨last, tombstone, stamp', by omega, rest⟩
      · rintro ⟨nodeId, node, seq, found, free, silent, rfl⟩
        refine ⟨⟨nodeId, node, seq, found, free, rfl⟩, fun other member same keyed => ?_⟩
        obtain ⟨later, node', stamp, at_later, -, rfl⟩ := (mem_observations _).mp member
        rw [seq_le at_later found]
        by_contra after
        refine silent later node' stamp (by omega) at_later ?_
        simp only [observationOf] at same keyed
        cases found_key : logObservationKey toJson node with
        | none => simp [found_key] at keyed
        | some text =>
            rw [found_key, Option.map_some, Option.map_eq_some_iff] at same
            obtain ⟨text', found_key', pair⟩ := same
            obtain ⟨named, rfl⟩ := Prod.mk.inj pair
            simp [sameObservation, named, found_key, found_key']
  refine ⟨_, by
    simp only [retainedLogObservationRecords, activeEq, boundaryEq, observationsEq, bind,
      Except.bind, pure, Except.pure]
    rfl, ?_⟩
  rw [← map_snd_stampedKept]
  exact ((List.mergeSort_perm _ _).trans entries_perm).map _

/-- The retained read of a run over log observations and tombstones returns the last version of
each observation written after the last tombstone of its id, exactly when the log keeps its
boundaries. -/
theorem retainedLog_iff (run : WriteRun env log written sink)
    (logs : ∀ record ∈ log, logRecord record = true) :
    ∃ records, sink.retainedLogObservationRecords env toJson = .ok records ∧
      (records.Perm (keptObservations (logObservationKey toJson) retractedByAny written) ↔
        KeepsBoundaries (logObservationKey toJson) written) := by
  have plain := fun record member => temporal_of_logRecord (logs record member)
  obtain ⟨records, read, perm⟩ := @retainedLogObservationRecords_eq env sink toJson run.coherent
    run.reachable.known (logOnly_of_run run logs)
  rw [run.records_plain plain] at perm
  refine ⟨records, read, ?_⟩
  rw [← keptObservations_perm_iff]
  exact ⟨perm.symm.trans, perm.trans⟩

/-- A JSON object of text fields. -/
def sampleToJson (fields : List (String × String)) : String :=
  "\x7b" ++ ",".intercalate (fields.map fun field =>
    "\"" ++ field.1 ++ "\":\"" ++ field.2 ++ "\"") ++ "\x7d"

/-- A signature, its tombstone, and another target's tombstone under the same record id. -/
def retargetedSightings : List GraphRecord :=
  [.node {
      id := "log:v3:a"
      kind := .errorSignature
      schemaVersion := 3
      rest := [("log.log_kind", "error_signature"), ("log.fingerprint", "f1")] },
    .tombstone { id := "log:v3:t", schemaVersion := 3, deletedId := "log:v3:a" },
    .tombstone { id := "log:v3:t", schemaVersion := 3, deletedId := "log:v3:b" }]

def sightingsSink : EmbeddedAletheiaSink :=
  ((runLog sampleAletheia {} retargetedSightings).map Prod.snd).getD {}

/-- The sightings are a run of log writes. -/
theorem retargetedSightings_run :
    WriteRun sampleAletheia retargetedSightings retargetedSightings sightingsSink := by
  have written : (runLog sampleAletheia {} retargetedSightings).map Prod.fst =
      some retargetedSightings := by
    decide
  obtain ⟨⟨_, sink⟩, ran, rfl⟩ := Option.map_eq_some_iff.mp written
  have same : sightingsSink = sink := by rw [sightingsSink, ran]; rfl
  rw [same]
  exact WriteRun.start.runLog ran

/-- The equivalence at this run. -/
theorem retargetedSightings_iff :
    ∃ records, sightingsSink.retainedLogObservationRecords sampleAletheia sampleToJson =
        .ok records ∧
      (records.Perm (keptObservations (logObservationKey sampleToJson) retractedByAny
          retargetedSightings) ↔
        KeepsBoundaries (logObservationKey sampleToJson) retargetedSightings) :=
  retainedLog_iff retargetedSightings_run (by decide)

/-- The retained read of that log still has the retracted signature. -/
theorem retargetedSightings_resurrected :
    ∃ records, sightingsSink.retainedLogObservationRecords sampleAletheia sampleToJson =
        .ok records ∧
      ¬ records.Perm (keptObservations (logObservationKey sampleToJson) retractedByAny
        retargetedSightings) := by
  have run := retargetedSightings_run
  obtain ⟨records, read, perm⟩ := @retainedLogObservationRecords_eq sampleAletheia sightingsSink
    sampleToJson run.coherent run.reachable.known (logOnly_of_run run (by decide))
  rw [run.records_plain (by decide)] at perm
  refine ⟨records, read, fun same => ?_⟩
  have lengths := (perm.symm.trans same).length_eq
  revert lengths
  decide

end Run

end EmbeddedAletheiaSink

end Egregore
