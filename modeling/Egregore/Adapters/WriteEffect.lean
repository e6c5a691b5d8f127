import Egregore.Adapters.WriteLog

/-!
# What a write changes in the current read

`Shown` says which records the current read returns. A tombstone hides its target and the
tombstone stored before under its own record id; a node or edge shows its id again and hides the
tombstones of it. Nothing else changes.
-/

namespace Egregore

open Base Database

namespace EmbeddedAletheiaSink

variable {env : Aletheia} {sink sink' : EmbeddedAletheiaSink} {db : Database} {last : Stored}

section Shown

/-- The current read of the database returns the record. -/
def Shown (env : Aletheia) (db : Database) : GraphRecord → Prop
  | .node node =>
      (∃ nodeId seq, db.getNode nodeId = some (.node node seq) ∧ isProjectId node.id = true ∧
        ¬ db.Suppressed node.id) ∨
      IsSnapshot env db (.node node) ∨
      ∃ nodeId seq, db.getNode nodeId = some (.node node seq) ∧
        lastIdx (Stored.plainNodeOf node.id) db = some nodeId ∧ isProjectId node.id = false ∧
        ¬ db.Suppressed node.id
  | .edge edge => ∃ edgeId stored, db.getEdge edgeId = some stored ∧ stored.record = edge ∧
      lastIdx (Stored.edgeOf edge.id) db = some edgeId ∧ ¬ db.Suppressed edge.id
  | .tombstone tombstone => ∃ nodeId seq, db.getNode nodeId = some (.tombstone tombstone seq) ∧
      lastIdx (Stored.tombstoneOf tombstone.id) db = some nodeId ∧
      db.Suppressed tombstone.deletedId

theorem Segments.Of.mem_slice_iff {segments : Segments} (parts : segments.Of env db)
    {record : GraphRecord} : record ∈ segments.slice ↔ Shown env db record := by
  simp only [Segments.slice, List.mem_append, parts.projects, parts.snapshots, parts.nodes,
    parts.tombstones, parts.edges]
  cases record with
  | node node =>
      constructor
      · rintro ((((⟨nodeId, _, seq, found, project, free, same⟩ | snapshot) |
            ⟨nodeId, _, seq, found, isLast, other, free, same⟩) | ⟨_, _, _, -, -, -, same⟩) |
            ⟨_, _, -, -, -, same⟩)
        · obtain rfl := GraphRecord.node.inj same
          exact Or.inl ⟨nodeId, seq, found, project, free⟩
        · exact Or.inr (Or.inl snapshot)
        · obtain rfl := GraphRecord.node.inj same
          exact Or.inr (Or.inr ⟨nodeId, seq, found, isLast, other, free⟩)
        · cases same
        · cases same
      · rintro (⟨nodeId, seq, found, project, free⟩ | snapshot |
            ⟨nodeId, seq, found, isLast, other, free⟩)
        · exact Or.inl (Or.inl (Or.inl (Or.inl ⟨nodeId, node, seq, found, project, free, rfl⟩)))
        · exact Or.inl (Or.inl (Or.inl (Or.inr snapshot)))
        · exact Or.inl (Or.inl (Or.inr ⟨nodeId, node, seq, found, isLast, other, free, rfl⟩))
  | edge edge =>
      constructor
      · rintro ((((⟨_, _, _, -, -, -, same⟩ | ⟨_, _, _, _, _, -, -, -, same⟩) |
            ⟨_, _, _, -, -, -, -, same⟩) | ⟨_, _, _, -, -, -, same⟩) |
            ⟨edgeId, stored, found, isLast, free, same⟩)
        · cases same
        · cases same
        · cases same
        · cases same
        · obtain rfl := GraphRecord.edge.inj same
          exact ⟨edgeId, stored, found, rfl, isLast, free⟩
      · rintro ⟨edgeId, stored, found, rfl, isLast, free⟩
        exact Or.inr ⟨edgeId, stored, found, isLast, free, rfl⟩
  | tombstone tombstone =>
      constructor
      · rintro ((((⟨_, _, _, -, -, -, same⟩ | ⟨_, _, _, _, _, -, -, -, same⟩) |
            ⟨_, _, _, -, -, -, -, same⟩) | ⟨nodeId, _, seq, found, isLast, suppressed, same⟩) |
            ⟨_, _, -, -, -, same⟩)
        · cases same
        · cases same
        · cases same
        · obtain rfl := GraphRecord.tombstone.inj same
          exact ⟨nodeId, seq, found, isLast, suppressed⟩
        · cases same
      · rintro ⟨nodeId, seq, found, isLast, suppressed⟩
        exact Or.inl (Or.inr ⟨nodeId, tombstone, seq, found, isLast, suppressed, rfl⟩)

/-- The current read succeeds, and returns the records shown. -/
theorem readAllRecords_shown (coherent : Coherent env sink) (known : sink.db.Known) :
    ∃ records, sink.readAllRecords env = .ok records ∧
      ∀ record, record ∈ records ↔ Shown env sink.db record := by
  obtain ⟨segments, current, parts⟩ := readAllRecords_eq coherent known
  exact ⟨_, current, fun record => parts.mem_slice_iff⟩

/-- The commits' candidates are those of the nodes with temporal metadata. -/
theorem filter_atCommit_append (untimed : ∀ node seq, last = .node (.node node seq) →
    node.temporal = none) (id commit : String) :
    (candidatesOf id (indexedNodes env (db ++ [last]) (nodeIds (db ++ [last])))).filter
        (atCommit commit) =
      (candidatesOf id (indexedNodes env db db.nodeIds)).filter (atCommit commit) := by
  have appended := @lookup_append env { db := db } last db.nodeIds (List.Perm.refl _)
  rw [nodeIds_append_singleton, appended, candidatesOf, List.filter_append, List.map_append,
    List.filter_append, ← candidatesOf]
  have none_ : (((last.node?.bind (indexedNode env db.length)).toList.filter
      fun node => node.recordId = id).map fun node =>
        (⟨node.nodeId, node.temporalKey⟩ : ReadBackCandidate)).filter (atCommit commit) = [] := by
    rw [List.filter_eq_nil_iff]
    intro candidate member
    simp only [List.mem_map, List.mem_filter, Option.mem_toList] at member
    obtain ⟨entry, ⟨entered, -⟩, rfl⟩ := member
    obtain ⟨stored, isNode, indexed⟩ := Option.bind_eq_some_iff.mp entered
    cases stored with
    | tombstone record seq => cases indexed
    | node record seq =>
        cases last with
        | edge edge => cases isNode
        | node stored =>
            obtain rfl := Option.some.inj isNode
            simp only [indexedNode, untimed record seq rfl, temporalReadKeyFromProperties] at indexed
            obtain rfl := Option.some.inj indexed
            exact Bool.false_ne_true
  rw [none_, List.append_nil]

/-- A snapshot is a stored node with temporal metadata. -/
theorem IsSnapshot.stored {node : NodeRecord} (snapshot : IsSnapshot env db (.node node)) :
    ∃ nodeId seq, db.getNode nodeId = some (.node node seq) ∧ node.temporal ≠ none := by
  obtain ⟨id, commit, candidate, _, seq, best, found, -, same⟩ := snapshot
  obtain rfl := GraphRecord.node.inj same
  obtain ⟨node', seq', found', -, read, observed⟩ := getNode_of_bestOf best
  rw [found, Option.some.injEq, StoredNode.node.injEq] at found'
  obtain ⟨rfl, rfl⟩ := found'
  refine ⟨_, seq, found, fun plain => ?_⟩
  rw [atCommit, (temporalKey_none_iff read).mpr plain] at observed
  exact Bool.false_ne_true observed

/-- Of an id with a stored node, some node is shown, unless the id is retracted. -/
theorem exists_shown_of_stored (coherent : Coherent env sink) {nodeId : Nat} {node : NodeRecord}
    {seq : Option Nat} (found : sink.db.getNode nodeId = some (.node node seq))
    (other : isProjectId node.id = false) (free : ¬ sink.db.Suppressed node.id) :
    ∃ shown : NodeRecord, shown.id = node.id ∧ Shown env sink.db (.node shown) := by
  obtain ⟨key, read⟩ := coherent.keyed nodeId node seq found
  cases key with
  | none =>
      have plain := (temporalKey_none_iff read).mp rfl
      cases isLast : lastIdx (Stored.plainNodeOf node.id) sink.db with
      | none =>
          have silent := lastIdx_eq_none_iff.mp isLast _
            (List.mem_of_getElem? (getNode_eq_some_iff.mp found))
          simp [Stored.plainNodeOf, plain] at silent
      | some last =>
          obtain ⟨stored, at_last, isNode, -⟩ := lastIdx_eq_some_iff.mp isLast
          obtain ⟨shown, stamp, at_shown, named, -⟩ := plainNodeOf_iff.mp ⟨stored, at_last, isNode⟩
          refine ⟨shown, named, Or.inr (Or.inr ⟨last, stamp, at_shown, ?_⟩)⟩
          rw [named]
          exact ⟨isLast, other, free⟩
  | some key =>
      have member : ⟨nodeId, some key⟩ ∈ (candidatesOf node.id
          (indexedNodes env sink.db sink.db.nodeIds)).filter (atCommit key.gitCommit) := by
        rw [List.mem_filter, mem_candidatesOf (List.Perm.refl _)]
        exact ⟨⟨node, seq, found, rfl, read⟩, by simp [atCommit]⟩
      cases best : bestOf candidateOrder ((candidatesOf node.id
          (indexedNodes env sink.db sink.db.nodeIds)).filter (atCommit key.gitCommit)) with
      | none =>
          rw [bestOf_eq_none_iff] at best
          rw [best] at member
          cases member
      | some candidate =>
          obtain ⟨shown, stamp, at_shown, named, -, -⟩ := getNode_of_bestOf best
          refine ⟨shown, named, Or.inr (Or.inl ⟨node.id, key.gitCommit, candidate, shown, stamp,
            best, at_shown, ?_, rfl⟩)⟩
          rintro ⟨project, -⟩
          rw [other] at project
          cases project

/-- The last edge stored under an id is shown, unless the id is retracted. -/
theorem exists_shown_of_edge {edgeId : Nat} {stored : StoredEdge}
    (found : db.getEdge edgeId = some stored) (free : ¬ db.Suppressed stored.record.id) :
    ∃ shown : EdgeRecord, shown.id = stored.record.id ∧ Shown env db (.edge shown) := by
  cases isLast : lastIdx (Stored.edgeOf stored.record.id) db with
  | none =>
      have silent := lastIdx_eq_none_iff.mp isLast _
        (List.mem_of_getElem? (getEdge_eq_some_iff.mp found))
      simp [Stored.edgeOf] at silent
  | some last =>
      obtain ⟨object, at_last, isEdge, -⟩ := lastIdx_eq_some_iff.mp isLast
      cases object with
      | node node => cases node <;> cases isEdge
      | edge edge =>
          have named : edge.record.id = stored.record.id := by simpa [Stored.edgeOf] using isEdge
          refine ⟨edge.record, named, last, edge, getEdge_eq_some_iff.mpr at_last, rfl, ?_⟩
          rw [named]
          exact ⟨isLast, free⟩

/-- A write without temporal metadata leaves the snapshots as they are, where it does not change
whether their project is retracted. -/
theorem isSnapshot_append (untimed : ∀ node seq, last = .node (.node node seq) →
    node.temporal = none) {node : NodeRecord}
    (same : node.temporal ≠ none → (Suppressed (db ++ [last]) node.id ↔ db.Suppressed node.id)) :
    IsSnapshot env (db ++ [last]) (.node node) ↔ IsSnapshot env db (.node node) := by
  have timed : ∀ {key commit nodeId} {found : NodeRecord},
      temporalReadKeyFromProperties env found.id found.temporal = .ok key →
      atCommit commit ⟨nodeId, key⟩ = true → found.temporal ≠ none := by
    intro key commit nodeId found read observed plain
    obtain rfl := (temporalKey_none_iff read).mpr plain
    exact Bool.false_ne_true observed
  constructor
  · rintro ⟨id, commit, candidate, _, seq, best, found, shown, same'⟩
    obtain rfl := GraphRecord.node.inj same'
    rw [filter_atCommit_append untimed] at best
    obtain ⟨node', seq', found', rfl, read, observed⟩ := getNode_of_bestOf best
    rw [getNode_append_of_some found', Option.some.injEq, StoredNode.node.injEq] at found
    obtain ⟨rfl, rfl⟩ := found
    rw [same (timed read observed)] at shown
    exact ⟨_, commit, candidate, node', seq', best, found', shown, rfl⟩
  · rintro ⟨id, commit, candidate, _, seq, best, found, shown, same'⟩
    obtain rfl := GraphRecord.node.inj same'
    obtain ⟨node', seq', found', rfl, read, observed⟩ := getNode_of_bestOf best
    rw [found, Option.some.injEq, StoredNode.node.injEq] at found'
    obtain ⟨rfl, rfl⟩ := found'
    rw [← same (timed read observed)] at shown
    rw [← filter_atCommit_append untimed] at best
    exact ⟨_, commit, candidate, node, seq, best, getNode_append_of_some found, shown, rfl⟩

/-- The nodes and edges of ids that the write does not touch are shown as before. -/
theorem shown_append_other (untimed : ∀ node seq, last = .node (.node node seq) →
    node.temporal = none) {record : GraphRecord}
    (written : ∀ target, record.deletes target = false) (silent : last.revives record.id = false)
    (same : Suppressed (db ++ [last]) record.id ↔ db.Suppressed record.id) :
    Shown env (db ++ [last]) record ↔ Shown env db record := by
  rw [Stored.revives, Bool.or_eq_false_iff] at silent
  cases record with
  | tombstone tombstone => simp [GraphRecord.deletes] at written
  | edge edge =>
      have position : lastIdx (Stored.edgeOf edge.id) (db ++ [last]) =
          lastIdx (Stored.edgeOf edge.id) db := by
        rw [lastIdx_append_singleton, if_neg (by simpa using silent.2)]
      simp only [Shown, position]
      constructor
      · rintro ⟨edgeId, stored, found, rfl, isLast, shown⟩
        have inside := (List.getElem?_eq_some_iff.mp (lastIdx_eq_some_iff.mp isLast).choose_spec.1).1
        rw [getEdge_append_left inside] at found
        exact ⟨edgeId, stored, found, rfl, isLast, fun held => shown (same.mpr held)⟩
      · rintro ⟨edgeId, stored, found, rfl, isLast, shown⟩
        have inside := (List.getElem?_eq_some_iff.mp (lastIdx_eq_some_iff.mp isLast).choose_spec.1).1
        refine ⟨edgeId, stored, ?_, rfl, isLast, fun held => shown (same.mp held)⟩
        rw [getEdge_append_left inside, found]
  | node node =>
      have position : lastIdx (Stored.plainNodeOf node.id) (db ++ [last]) =
          lastIdx (Stored.plainNodeOf node.id) db := by
        rw [lastIdx_append_singleton, if_neg (by simpa using silent.1)]
      have found_iff : ∀ {nodeId seq}, getNode (db ++ [last]) nodeId = some (.node node seq) ↔
          db.getNode nodeId = some (.node node seq) := by
        intro nodeId seq
        rw [getNode_append_singleton]
        refine or_iff_left ?_
        rintro ⟨-, isLast⟩
        cases last with
        | edge edge => cases isLast
        | node stored =>
            obtain rfl := Option.some.inj isLast
            simp [Stored.plainNodeOf, untimed node seq rfl] at silent
      have snapshot : IsSnapshot env (db ++ [last]) (.node node) ↔
          IsSnapshot env db (.node node) := isSnapshot_append untimed fun _ => same
      rw [GraphRecord.id_node] at same
      simp only [Shown, found_iff, position, snapshot, same]

end Shown

section Revival

variable {id : String}

theorem not_tombstone_of_revives (revives : last.revives id = true) (tombstoneId : String) :
    last.tombstoneOf tombstoneId = false := by
  cases last with
  | edge edge => rfl
  | node stored =>
      cases stored with
      | node record seq => rfl
      | tombstone record seq => cases revives

theorem eq_of_revives (revives : last.revives id = true) : last.record.id = id := by
  cases last with
  | edge edge =>
      simpa [Stored.revives, Stored.plainNodeOf, Stored.edgeOf, Stored.record] using revives
  | node stored =>
      cases stored with
      | node record seq =>
          simp only [Stored.revives, Stored.plainNodeOf, Stored.edgeOf, Bool.or_false,
            Bool.and_eq_true, decide_eq_true_eq] at revives
          exact revives.1
      | tombstone record seq => cases revives

theorem untimed_of_revives (revives : last.revives id = true) (node : NodeRecord)
    (seq : Option Nat) (same : last = .node (.node node seq)) : node.temporal = none := by
  subst same
  simp only [Stored.revives, Stored.plainNodeOf, Stored.edgeOf, Bool.or_false, Bool.and_eq_true,
    Option.isNone_iff_eq_none] at revives
  exact revives.2

/-- A write that brings an id back brings back that id only. -/
theorem suppressed_append_revival (revives : last.revives id = true) {other : String} :
    Suppressed (db ++ [last]) other ↔ db.Suppressed other ∧ other ≠ id := by
  rw [suppressed_iff_exists, suppressed_iff_exists]
  have named := eq_of_revives revives
  have revives_iff : last.revives other = false ↔ other ≠ id := by
    constructor
    · rintro silent rfl
      rw [revives] at silent
      cases silent
    · intro differs
      by_contra revived
      rw [Bool.not_eq_false] at revived
      exact differs ((eq_of_revives revived).symm.trans named)
  simp only [suppressedBy_append_of_not_tombstone (not_tombstone_of_revives revives), revives_iff,
    exists_and_right]

/-- The node and edge records of other ids are shown as before. -/
theorem shown_append_revival (revives : last.revives id = true) {record : GraphRecord}
    (written : ∀ target, record.deletes target = false) (differs : record.id ≠ id) :
    Shown env (db ++ [last]) record ↔ Shown env db record := by
  refine shown_append_other (untimed_of_revives revives) written ?_ ?_
  · by_contra revived
    rw [Bool.not_eq_false] at revived
    exact differs ((eq_of_revives revived).symm.trans (eq_of_revives revives))
  · rw [suppressed_append_revival revives, and_iff_left differs]

/-- The tombstones of the id disappear. -/
theorem shown_append_revival_tombstone (revives : last.revives id = true)
    {tombstone : TombstoneRecord} :
    Shown env (db ++ [last]) (.tombstone tombstone) ↔
      Shown env db (.tombstone tombstone) ∧ tombstone.deletedId ≠ id := by
  have position : lastIdx (Stored.tombstoneOf tombstone.id) (db ++ [last]) =
      lastIdx (Stored.tombstoneOf tombstone.id) db := by
    rw [lastIdx_append_singleton, not_tombstone_of_revives revives]
    rfl
  have found_iff : ∀ {nodeId seq},
      getNode (db ++ [last]) nodeId = some (.tombstone tombstone seq) ↔
        db.getNode nodeId = some (.tombstone tombstone seq) := by
    intro nodeId seq
    rw [getNode_append_singleton]
    refine or_iff_left ?_
    rintro ⟨-, isLast⟩
    cases last with
    | edge edge => cases isLast
    | node stored =>
        obtain rfl := Option.some.inj isLast
        cases revives
  simp only [Shown, position, found_iff, suppressed_append_revival revives]
  constructor
  · rintro ⟨nodeId, seq, found, isLast, suppressed, differs⟩
    exact ⟨⟨nodeId, seq, found, isLast, suppressed⟩, differs⟩
  · rintro ⟨⟨nodeId, seq, found, isLast, suppressed⟩, differs⟩
    exact ⟨nodeId, seq, found, isLast, suppressed, differs⟩

end Revival

section Retraction

variable {tombstone : TombstoneRecord} {seq : Option Nat}

/-- The tombstones shown under a record id all delete the same target. -/
def DeletesOnly (env : Aletheia) (db : Database) (tombstoneId id : String) : Prop :=
  ∀ shown : TombstoneRecord, Shown env db (.tombstone shown) → shown.id = tombstoneId →
    shown.deletedId = id

theorem shown_of_suppressedBy {tombstoneId id : String}
    (suppressed : db.SuppressedBy tombstoneId id) :
    ∃ shown : TombstoneRecord, Shown env db (.tombstone shown) ∧ shown.id = tombstoneId ∧
      shown.deletedId = id := by
  have suppressed' := suppressed_iff_exists.mpr ⟨tombstoneId, suppressed⟩
  obtain ⟨nodeId, record, seq, found, rfl, rfl, isLast, -⟩ := suppressed
  exact ⟨record, ⟨nodeId, seq, found, isLast, suppressed'⟩, rfl, rfl⟩

theorem suppressed_append_tombstone
    (only : DeletesOnly env db tombstone.id tombstone.deletedId) {id : String} :
    Suppressed (db ++ [.node (.tombstone tombstone seq)]) id ↔
      id = tombstone.deletedId ∨ db.Suppressed id := by
  rw [suppressed_iff_exists, suppressed_iff_exists]
  simp only [suppressedBy_append_tombstone]
  constructor
  · rintro ⟨tombstoneId, ⟨-, deletes⟩ | ⟨-, suppressed⟩⟩
    · exact Or.inl deletes.symm
    · exact Or.inr ⟨tombstoneId, suppressed⟩
  · rintro (rfl | ⟨tombstoneId, suppressed⟩)
    · exact ⟨tombstone.id, Or.inl ⟨rfl, rfl⟩⟩
    · by_cases same : tombstone.id = tombstoneId
      · obtain ⟨shown, isShown, named, deletes⟩ := @shown_of_suppressedBy env _ _ _ suppressed
        exact ⟨tombstoneId, Or.inl ⟨same, by rw [← deletes, only shown isShown (by rw [named, same])]⟩⟩
      · exact ⟨tombstoneId, Or.inr ⟨same, suppressed⟩⟩

/-- A tombstone is shown once it is written. -/
theorem shown_append_self :
    Shown env (db ++ [.node (.tombstone tombstone seq)]) (.tombstone tombstone) := by
  refine ⟨db.length, seq, getNode_append_new _, ?_, ?_⟩
  · rw [lastIdx_append_singleton, if_pos (by simp [Stored.tombstoneOf])]
  · exact suppressed_iff_exists.mpr
      ⟨tombstone.id, suppressedBy_append_tombstone.mpr (Or.inl ⟨rfl, rfl⟩)⟩

/-- Its target is not. -/
theorem not_shown_append_target {record : GraphRecord} (named : record.id = tombstone.deletedId)
    (written : ∀ target, record.deletes target = false)
    (untimed : ∀ nodeId node seq, db.getNode nodeId = some (.node node seq) →
      node.id = tombstone.deletedId → node.temporal = none) :
    ¬ Shown env (db ++ [.node (.tombstone tombstone seq)]) record := by
  have suppressed : Suppressed (db ++ [.node (.tombstone tombstone seq)]) record.id :=
    suppressed_iff_exists.mpr
      ⟨tombstone.id, suppressedBy_append_tombstone.mpr (Or.inl ⟨rfl, named.symm⟩)⟩
  cases record with
  | tombstone other => simp [GraphRecord.deletes] at written
  | edge edge =>
      rintro ⟨_, _, -, -, -, free⟩
      exact free suppressed
  | node node =>
      rintro (⟨_, _, -, -, free⟩ | snapshot | ⟨_, _, -, -, -, free⟩)
      · exact free suppressed
      · obtain ⟨nodeId, nodeSeq, found, timed⟩ := snapshot.stored
        rcases getNode_append_singleton.mp found with before | ⟨-, isLast⟩
        · exact timed (untimed nodeId node nodeSeq before named)
        · cases isLast
      · exact free suppressed

/-- Other nodes and edges are shown as before. -/
theorem shown_append_tombstone {record : GraphRecord}
    (only : DeletesOnly env db tombstone.id tombstone.deletedId)
    (written : ∀ target, record.deletes target = false) (differs : record.id ≠ tombstone.deletedId) :
    Shown env (db ++ [.node (.tombstone tombstone seq)]) record ↔ Shown env db record := by
  refine shown_append_other (by rintro _ _ ⟨⟩) written rfl ?_
  rw [suppressed_append_tombstone only, or_iff_right differs]

/-- Tombstones of other targets are shown as before. -/
theorem shown_append_tombstone_other {other : TombstoneRecord}
    (only : DeletesOnly env db tombstone.id tombstone.deletedId)
    (differs : other.deletedId ≠ tombstone.deletedId) :
    Shown env (db ++ [.node (.tombstone tombstone seq)]) (.tombstone other) ↔
      Shown env db (.tombstone other) := by
  have position : lastIdx (Stored.tombstoneOf other.id)
      (db ++ [.node (.tombstone tombstone seq)]) =
        if tombstone.id = other.id then some db.length
        else lastIdx (Stored.tombstoneOf other.id) db := by
    rw [lastIdx_append_singleton]
    by_cases same : tombstone.id = other.id <;> simp [Stored.tombstoneOf, same]
  constructor
  · rintro ⟨nodeId, otherSeq, found, isLast, suppressed⟩
    rcases getNode_append_singleton.mp found with before | ⟨rfl, here⟩
    · have inside := lt_length_of_getNode before
      rw [position] at isLast
      split at isLast
      · rw [Option.some.injEq] at isLast
        omega
      · rw [suppressed_append_tombstone only, or_iff_right differs] at suppressed
        exact ⟨nodeId, otherSeq, before, isLast, suppressed⟩
    · rw [Stored.node?, Option.some.injEq, StoredNode.tombstone.injEq] at here
      exact absurd (here.1 ▸ rfl) differs
  · intro shown
    have unused : tombstone.id ≠ other.id := fun same => differs (only other shown same.symm)
    obtain ⟨nodeId, otherSeq, found, isLast, suppressed⟩ := shown
    refine ⟨nodeId, otherSeq, getNode_append_of_some found, ?_, ?_⟩
    · rw [position, if_neg unused, isLast]
    · exact (suppressed_append_tombstone only).mpr (Or.inr suppressed)

end Retraction

section Accept

/-- What is stored under the id can be read back: a node or tombstone, or edges whose timestamps
can all be read. -/
def ReadsBack (env : Aletheia) (db : Database) (id : String) : Prop :=
  (∃ nodeId stored, db.getNode nodeId = some stored ∧ stored.record.id = id) ∨
    ∀ edgeId edge, db.getEdge edgeId = some edge → edge.record.id = id →
      ∃ key, temporalReadKeyFromProperties env id edge.record.temporal = .ok key

theorem findEdge_spec {id : String} {scan : List Nat} {found : Option ReadBackCandidate}
    (met : ∀ edgeId ∈ scan, ∃ edge, sink.db.getEdge edgeId = some edge)
    (start : ∀ candidate, found = some candidate →
      ∃ edge, sink.db.getEdge candidate.storageId = some edge ∧ edge.record.id = id) :
    ((∃ last, sink.findEdge env id scan found = .ok last) ↔
      ∀ edgeId ∈ scan, ∀ edge, sink.db.getEdge edgeId = some edge → edge.record.id = id →
        ∃ key, temporalReadKeyFromProperties env id edge.record.temporal = .ok key) ∧
    ∀ candidate, sink.findEdge env id scan found = .ok (some candidate) →
      ∃ edge, sink.db.getEdge candidate.storageId = some edge ∧ edge.record.id = id := by
  induction scan generalizing found with
  | nil =>
      refine ⟨iff_of_true ⟨found, rfl⟩ (by simp), fun candidate same => ?_⟩
      exact start candidate (Except.ok.inj same)
  | cons edgeId rest ih =>
      obtain ⟨edge, at_edge⟩ := met edgeId List.mem_cons_self
      have others := fun other member => met other (List.mem_cons_of_mem edgeId member)
      rw [findEdge, at_edge]
      simp only [List.forall_mem_cons, at_edge, Option.some.injEq, forall_eq']
      by_cases named : edge.record.id = id
      · rw [if_pos named]
        cases read : temporalReadKeyFromProperties env id edge.record.temporal with
        | error fault =>
            refine ⟨iff_of_false (fun ⟨_, failed⟩ => by cases failed) fun both => ?_, ?_⟩
            · obtain ⟨key, ok⟩ := both.1 named
              cases ok
            · intro candidate failed
              cases failed
        | ok key =>
            have next := @ih (if shouldReplaceReadBackCandidate found ⟨edgeId, key⟩ then
              some ⟨edgeId, key⟩ else found) others (by
                intro candidate same
                split at same
                · obtain rfl := Option.some.inj same
                  exact ⟨edge, at_edge, named⟩
                · exact start candidate same)
            refine ⟨next.1.trans ⟨fun all => ⟨fun _ => ⟨key, rfl⟩, all⟩, fun both => both.2⟩, next.2⟩
      · rw [if_neg named]
        have next := @ih found others start
        exact ⟨next.1.trans ⟨fun all => ⟨fun same => absurd same named, all⟩, fun both => both.2⟩,
          next.2⟩

theorem readBack_ok_iff (coherent : Coherent env sink) (known : sink.db.Known) (id : String) :
    (∃ found, sink.readBack env id = .ok found) ↔ ReadsBack env sink.db id := by
  have scanned := mem_scan env fun id edge found => (coherent.ends id edge found).1
  obtain ⟨ids, described, same⟩ := coherent.lookup
  rw [readBack]
  cases latest : sink.nodeLookup.latestNode id with
  | some nodeId =>
      rw [described.latestNode_eq, Option.map_eq_some_iff] at latest
      obtain ⟨candidate, best, rfl⟩ := latest
      obtain ⟨node, seq, found, rfl, -⟩ := (mem_candidatesOf same).mp (isBest_of_bestOf best).mem
      refine iff_of_true ⟨some (.node node), ?_⟩ (Or.inl ⟨_, _, found, rfl⟩)
      simp [readNodeRecord_eq_ok known found, Except.map]
  | none =>
      have noNode : ∀ nodeId node seq, sink.db.getNode nodeId = some (.node node seq) →
          node.id ≠ id := by
        rintro nodeId node seq found rfl
        obtain ⟨key, read⟩ := coherent.keyed nodeId node seq found
        have member : ⟨nodeId, key⟩ ∈ candidatesOf node.id (indexedNodes env sink.db ids) :=
          (mem_candidatesOf same).mpr ⟨node, seq, found, rfl, read⟩
        rw [described.latestNode_eq, Option.map_eq_none_iff] at latest
        exact List.not_mem_nil (bestOf_eq_none_iff.mp latest ▸ member)
      cases indexed : sink.tombstoneIds[id]? with
      | some nodeId =>
          obtain ⟨tombstone, seq, found, rfl⟩ := tombstone_of_indexed coherent indexed
          refine iff_of_true ⟨some (.tombstone tombstone), ?_⟩ (Or.inl ⟨_, _, found, rfl⟩)
          simp [readTombstoneRecord_eq_ok known found, Except.map]
      | none =>
          rw [coherent.tombstoneIds, lastIdx_eq_none_iff] at indexed
          have noNodes : ¬ ∃ nodeId stored, sink.db.getNode nodeId = some stored ∧
              stored.record.id = id := by
            rintro ⟨nodeId, stored, found, named⟩
            cases stored with
            | node node seq => exact noNode nodeId node seq found named
            | tombstone tombstone seq =>
                have silent := indexed _ (List.mem_of_getElem? (getNode_eq_some_iff.mp found))
                have isTombstone : tombstone.id = id := named
                simp [Stored.tombstoneOf, isTombstone] at silent
          obtain ⟨ok_iff, edgeOf⟩ := @findEdge_spec env sink id (sink.edgeScan env) none
            (fun edgeId member => (scanned edgeId).mp member) (by simp)
          have readable : ReadsBack env sink.db id ↔ ∀ edgeId ∈ sink.edgeScan env, ∀ edge,
              sink.db.getEdge edgeId = some edge → edge.record.id = id →
                ∃ key, temporalReadKeyFromProperties env id edge.record.temporal = .ok key := by
            rw [ReadsBack, or_iff_right noNodes]
            exact ⟨fun all edgeId _ => all edgeId, fun all edgeId edge found =>
              all edgeId ((scanned edgeId).mpr ⟨edge, found⟩) edge found⟩
          rw [readable, ← ok_iff]
          cases scan : sink.findEdge env id (sink.edgeScan env) none with
          | error fault => simp
          | ok last =>
              cases last with
              | none => exact iff_of_true ⟨none, rfl⟩ ⟨none, rfl⟩
              | some candidate =>
                  obtain ⟨edge, found, rfl⟩ := edgeOf candidate scan
                  refine iff_of_true ⟨some (.edge edge.record), ?_⟩ ⟨_, rfl⟩
                  simp [readEdgeRecord_eq_ok known found, Except.map]

/-- The write of a tombstone that is not in force creates it, if its version is known and what is
stored under its record id can be read back. -/
theorem writeAndVerify_tombstone (coherent : Coherent env sink) (known : sink.db.Known)
    {tombstone : TombstoneRecord}
    (accepting : env.refuses sink.db (preparedTombstone tombstone (sink.writeSeq + 1)) = none)
    (version : KnownVersion (.tombstone tombstone)) (readable : ReadsBack env sink.db tombstone.id)
    (free : ¬ sink.db.SuppressedBy tombstone.id tombstone.deletedId) :
    sink.writeRecord env (.tombstone tombstone) = (sink.withTombstone tombstone, .ok .inserted) ∧
      sink.writeAndVerify env (.tombstone tombstone) =
        (sink.withTombstone tombstone, .ok .inserted) := by
  have validates := validateAdapterRecordVersion_eq_ok_iff.mpr version
  obtain ⟨found, read⟩ := (readBack_ok_iff coherent known tombstone.id).mpr readable
  -- The guard answers, and does not find the tombstone in force.
  have guard : sink.storedAndActive env tombstone = .ok false := by
    have answers : ∃ active, sink.storedAndActive env tombstone = .ok active := by
      have stale : ∃ stale, sink.storedTombstoneIsStale env tombstone.id = .ok stale := by
        rw [storedTombstoneIsStale]
        cases indexed : sink.tombstoneIds[tombstone.id]? with
        | none => exact ⟨false, rfl⟩
        | some nodeId =>
            obtain ⟨record, seq, at_node, -⟩ := tombstone_of_indexed coherent indexed
            exact ⟨_, by simp [at_node, deletedIdOf]; rfl⟩
      obtain ⟨stale, isStale⟩ := stale
      rw [storedAndActive]
      simp only [expectedRecordState, compareLatestRecord, GraphRecord.id_tombstone, read, isStale]
      cases found with
      | none => exact ⟨false, rfl⟩
      | some record =>
          dsimp only
          cases sameRecord record (.tombstone tombstone)
          · exact ⟨false, rfl⟩
          · exact ⟨!stale, rfl⟩
    obtain ⟨active, answer⟩ := answers
    cases active with
    | false => exact answer
    | true => exact absurd (suppressedBy_of_storedAndActive coherent answer) free
  have created : sink.createTombstone env tombstone =
      (sink.withTombstone tombstone, .ok .inserted) := by
    unfold createTombstone prepare create
    simp only [accepting, bookkeepTombstoneWrite, getNode_append_new]
    simp only [preparedTombstone, Stored.node?, StoredNode.record, GraphRecord.id, ne_eq,
      not_true_eq_false, if_false, reported]
    rfl
  have wrote : sink.writeRecord env (.tombstone tombstone) =
      (sink.withTombstone tombstone, .ok .inserted) := by
    have skips : sink.writeTombstone env tombstone = sink.createTombstone env tombstone := by
      rw [writeTombstone, guard]
      rfl
    unfold writeRecord
    simp only [validates, skips, created]
  refine ⟨wrote, ?_⟩
  have verified : (sink.withTombstone tombstone).verifyRecord env (.tombstone tombstone) =
      .ok () := by
    have handle : (sink.withTombstone tombstone).recordHandles[tombstone.id]? =
        some (.tombstone sink.db.length) := Std.ExtTreeMap.getElem?_insert_self
    have held : (sink.withTombstone tombstone).db.getNode sink.db.length =
        some (.tombstone tombstone (some (sink.writeSeq + 1))) := getNode_append_new _
    rw [verifyRecord, GraphRecord.id_tombstone, handle]
    simp [readHandle, readTombstoneRecord, held, StoredNode.record, validated_eq_ok version]
  rw [writeAndVerify, validates]
  dsimp only
  rw [wrote]
  dsimp only
  rw [verified]

theorem node_of_readBack {recordId : String} {node : NodeRecord}
    (read : sink.readBack env recordId = .ok (some (.node node))) :
    ∃ nodeId seq, sink.db.getNode nodeId = some (.node node seq) ∧ node.id = recordId := by
  rw [readBack] at read
  split at read
  · next nodeId _ =>
      cases found : sink.readNodeRecord env recordId nodeId with
      | error fault => simp [found, Except.map] at read
      | ok record =>
          obtain ⟨stored, seq, at_node, named, rfl⟩ := record_of_readNodeRecord found
          simp only [found, Except.map, Except.ok.injEq, Option.some.injEq,
            GraphRecord.node.injEq] at read
          subst read
          exact ⟨nodeId, seq, at_node, named⟩
  · split at read
    · next nodeId _ =>
        cases held : sink.readTombstoneRecord env recordId nodeId with
        | error fault => simp [held, Except.map] at read
        | ok record =>
            obtain ⟨_, _, -, -, rfl⟩ := record_of_readTombstoneRecord held
            simp [held, Except.map] at read
    · split at read
      · cases read
      · cases read
      · next candidate _ =>
          cases held : sink.readEdgeRecord env recordId candidate.storageId with
          | error fault => simp [held, Except.map] at read
          | ok record =>
              obtain ⟨_, -, -, rfl⟩ := record_of_readEdgeRecord held
              simp [held, Except.map] at read

/-- The write of a node under an id of which no node is stored creates it. -/
theorem writeAndVerify_node (coherent : Coherent env sink) (known : sink.db.Known)
    {node : NodeRecord} (untimed : node.temporal = none)
    (accepting : env.refuses sink.db (preparedNode node (sink.writeSeq + 1)) = none)
    (version : KnownVersion (.node node)) (readable : ReadsBack env sink.db node.id)
    (unused : ∀ nodeId stored seq, sink.db.getNode nodeId = some (.node stored seq) →
      stored.id ≠ node.id) :
    sink.writeRecord env (.node node) = (sink.withNode node none, .ok .inserted) ∧
      sink.writeAndVerify env (.node node) = (sink.withNode node none, .ok .inserted) := by
  have validates := validateAdapterRecordVersion_eq_ok_iff.mpr version
  obtain ⟨found, read⟩ := (readBack_ok_iff coherent known node.id).mpr readable
  have guard : sink.storedAndLive env (.node node) = .ok false := by
    rw [storedAndLive]
    simp only [expectedRecordState, untimed, compareLatestRecord, GraphRecord.id_node, read]
    cases found with
    | none => rfl
    | some record =>
        dsimp only
        cases same : sameRecord record (.node node) with
        | false => rfl
        | true =>
            rw [sameRecord, decide_eq_true_eq] at same
            cases record with
            | edge edge => simp [GraphRecord.withClearedProducerStartedAt] at same
            | tombstone tombstone => simp [GraphRecord.withClearedProducerStartedAt] at same
            | node stored =>
                obtain ⟨nodeId, seq, at_node, named⟩ := node_of_readBack read
                exact absurd named (unused nodeId stored seq at_node)
  have plain : node.stored = node := GraphRecord.node.inj
    (GraphRecord.stored_eq_self (show (GraphRecord.node node).temporal = none from untimed))
  have created : sink.createNode env node = (sink.withNode node none, .ok .inserted) := by
    unfold createNode prepare create
    simp only [accepting, bookkeepNodeWrite, getNode_append_new]
    simp only [preparedNode, Stored.node?, StoredNode.record, GraphRecord.id, plain,
      GraphRecord.temporal, untimed, ne_eq, not_true_eq_false, if_false,
      temporalReadKeyFromProperties, reported]
    rw [withNode, preparedNode, plain]
  have wrote : sink.writeRecord env (.node node) = (sink.withNode node none, .ok .inserted) := by
    have skips : sink.writeNode env node = sink.createNode env node := by
      rw [writeNode, guard]
      rfl
    unfold writeRecord
    simp only [validates, skips, created]
  refine ⟨wrote, ?_⟩
  have verified : (sink.withNode node none).verifyRecord env (.node node) = .ok () := by
    have handle : (sink.withNode node none).recordHandles[node.id]? =
        some (.node sink.db.length) := Std.ExtTreeMap.getElem?_insert_self
    have held : (sink.withNode node none).db.getNode sink.db.length =
        some (.node node (some (sink.writeSeq + 1))) := by
      refine (getNode_append_new _).trans ?_
      rw [preparedNode, plain]
      rfl
    rw [verifyRecord, GraphRecord.id_node, handle]
    simp [readHandle, readNodeRecord, held, StoredNode.record, validated_eq_ok version]
  rw [writeAndVerify, validates]
  dsimp only
  rw [wrote]
  dsimp only
  rw [verified]

/-- An accepted tombstone has what is stored under its record id read back. -/
theorem readsBack_of_tombstone (coherent : Coherent env sink) (known : sink.db.Known)
    {tombstone : TombstoneRecord} {outcome : WriteOutcome}
    (wrote : sink.writeRecord env (.tombstone tombstone) = (sink', .ok outcome)) :
    KnownVersion (.tombstone tombstone) ∧ ReadsBack env sink.db tombstone.id := by
  have guarded : ∀ {active}, sink.guardOf env (.tombstone tombstone) = .ok active →
      ReadsBack env sink.db tombstone.id := by
    intro active guard
    rw [← readBack_ok_iff coherent known]
    cases read : sink.readBack env tombstone.id with
    | ok found => exact ⟨found, rfl⟩
    | error fault =>
        change sink.storedAndActive env tombstone = .ok active at guard
        simp [storedAndActive, expectedRecordState, compareLatestRecord, read] at guard
  cases accepts_of_writeRecord wrote with
  | unchanged version stored => exact ⟨version, guarded stored⟩
  | inserted version notStored creates => exact ⟨version, guarded notStored⟩

end Accept

end EmbeddedAletheiaSink

end Egregore
