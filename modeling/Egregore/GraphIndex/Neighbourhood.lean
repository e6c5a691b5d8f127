import Egregore.GraphIndex.Closure
import Mathlib.Algebra.Order.BigOperators.Group.List
import Mathlib.Algebra.Order.Ring.Nat
import Mathlib.Data.List.Dedup

/-!
# The neighbourhood a closure covers

What each selector asks for, stated on the records alone: the ids taken with all
their versions and tombstones, the ids whose edges are taken raw, and the edges
taken with their tombstones. `Indexed` says a view serves located lines.
-/

namespace Egregore

open Base

section Records

variable (records : List GraphRecord)

/-- Some version of `id` is an `Import` node. -/
def importNode (id : String) : Bool :=
  records.any fun record => record.id = id && record.nodeKind? = some .importDecl

/-- The edge contains its target: `CONTAINS`, `DEFINES`, or `IMPORTS` of an import. -/
def containment (edge : EdgeRecord) : Bool :=
  match edge.label with
  | .contains | .defines => true
  | .imports => importNode records edge.target
  | _ => false

/-- `parent` contains `node` by some edge version. -/
def ParentOf (node parent : String) : Prop :=
  ∃ edge, GraphRecord.edge edge ∈ records ∧ edge.target = node ∧ edge.source = parent ∧
    containment records edge = true

/-- `ancestor` is `node` or contains it, through any number of parents. -/
def Ancestor (node ancestor : String) : Prop :=
  Relation.ReflTransGen (ParentOf records) node ancestor

/-- Some edge version runs between the two ids. -/
def Adjacent (id other : String) : Prop :=
  ∃ edge, GraphRecord.edge edge ∈ records ∧
    (edge.source = id ∧ edge.target = other ∨ edge.target = id ∧ edge.source = other)

end Records

namespace Selector

/-- Whether a walk follows its anchors' incident edges. -/
def follows : Selector → Bool
  | .byId _ | .byName _ | .anchored _ => true
  | _ => false

/-- Whether a followed neighbour brings its own edges. -/
def wide : Selector → Bool
  | .byId _ | .byName _ => true
  | _ => false

/-- Whether a walk climbs the containment ancestry. -/
def climbs : Selector → Bool
  | .whole | .byKind _ => false
  | _ => true

variable (records : List GraphRecord)

/-- The ids a selector names. -/
def Anchors : Selector → String → Prop
  | .whole, _ => False
  | .byId anchor, id | .anchored anchor, id | .lineage anchor, id => id = anchor
  | .byName name, id => ∃ node, GraphRecord.node node ∈ records ∧ node.name = some name ∧ node.id = id
  | .byPath path, id =>
      ∃ node, GraphRecord.node node ∈ records ∧ node.repoRelativePath = some path ∧ node.id = id
  | .byKind kind, id =>
      ∃ node, GraphRecord.node node ∈ records ∧ node.kind.asStr = kind ∧ node.id = id

/-- An anchor, or a neighbour of one. -/
def Seeds (selector : Selector) (id : String) : Prop :=
  selector.Anchors records id ∨
    selector.follows = true ∧ ∃ anchor, selector.Anchors records anchor ∧ Adjacent records anchor id

/-- The ids taken with all their versions and tombstones. -/
def Covers (selector : Selector) (id : String) : Prop :=
  selector.Seeds records id ∨
    selector.climbs = true ∧ ∃ seed, selector.Seeds records seed ∧ Ancestor records seed id

/-- The ids whose incident edges are taken as they stand, without tombstones. -/
def Widens (selector : Selector) (id : String) : Prop :=
  selector.wide = true ∧ selector.Seeds records id ∨
    selector.climbs = true ∧ ∃ child, selector.Covers records child ∧ ParentOf records child id

/-- The edge lines taken together with the tombstones of their edge. -/
def Retires (selector : Selector) (edge : EdgeRecord) : Prop :=
  GraphRecord.edge edge ∈ records ∧
    (selector.follows = true ∧
        (∃ anchor, selector.Anchors records anchor ∧ (edge.source = anchor ∨ edge.target = anchor)) ∨
      selector.climbs = true ∧ selector.Covers records edge.target ∧
        containment records edge = true)

/-- The records of a selector's closure. -/
def Takes (selector : Selector) (record : GraphRecord) : Prop :=
  selector.Covers records record.id ∨
    (∃ id, selector.Covers records id ∧ record.deletes id = true) ∨
    (∃ id, selector.Widens records id ∧ record.touches id = true) ∨
    ∃ edge, selector.Retires records edge ∧
      (record = .edge edge ∨ record.deletes edge.id = true)

end Selector

/-- The first table posts each record under its own ID. -/
@[simp] theorem Table.mem_keys_byId {id : String} {record : GraphRecord} :
    id ∈ Table.byId.keys record ↔ record.id = id := by
  simp [Table.keys, eq_comm]

/-- The second one posts a tombstone under the ID it deletes. -/
@[simp] theorem Table.mem_keys_deletedId {id : String} {record : GraphRecord} :
    id ∈ Table.deletedId.keys record ↔ record.deletes id = true := by
  cases record <;> simp [Table.keys, GraphRecord.deletes, eq_comm]

/-- The third one posts an edge under both its ends. -/
@[simp] theorem Table.mem_keys_adjacency {id : String} {record : GraphRecord} :
    id ∈ Table.adjacency.keys record ↔ record.touches id = true := by
  cases record with
  | edge edge =>
      simp only [Table.keys, GraphRecord.touches, Bool.or_eq_true, decide_eq_true_eq]
      split <;> grind
  | _ => simp [Table.keys, GraphRecord.touches]

/-- A view that serves the located lines `lines`. -/
structure Indexed (view : IndexView) (lines : List Line) : Prop where
  ascending : lines.Pairwise fun line later => line.offset < later.offset
  postings : ∀ table key, view.postings table key =
    (lines.filter fun line => key ∈ table.keys line.record).map Line.offset
  recordAt : ∀ line ∈ lines, view.recordAt line.offset = some line.record
  bound : lines.length ≤ view.lineBound

/-- The in-memory view of a built index serves the located lines. -/
theorem memView_indexed {serde : SerdeJson} {index : GraphIndex} {bytes : Bytes}
    (built : BuiltFrom serde index bytes) :
    Indexed (memView serde index.body bytes) (locatedLines serde bytes) where
  ascending := locatedLines_ascending bytes
  recordAt _ member := readRecordAt_located member
  bound := locatedLines_length_le bytes
  postings table key := by
    have filled := getD_foldl_indexLine (locatedLines serde bytes) {} table key
    have empty : (({} : GraphIndexBody).map table)[key]?.getD [] = [] := by
      cases table <;> rfl
    rw [empty, List.nil_append] at filled
    have ascending : ((locatedLines serde bytes).filter
        fun line => key ∈ table.keys line.record).map Line.offset |>.Pairwise (· < ·) := by
      rw [List.pairwise_map]
      exact (locatedLines_ascending bytes).filter _
    simp only [memView, built.body, GraphIndexBody.map_mapTables, Std.ExtTreeMap.getElem?_map]
    cases found : ((List.foldl indexLine {} (locatedLines serde bytes)).map table)[key]? with
    | none => simpa [found] using filled
    | some offsets =>
        simp only [found, Option.getD_some] at filled
        simp only [Option.map_some, Option.getD_some, filled]
        exact sortDedup_of_ascending ascending

/-- The view that serves `lines` from the list itself. -/
def lineView (lines : List Line) : IndexView where
  postings table key := (lines.filter fun line => key ∈ table.keys line.record).map Line.offset
  recordAt offset := (lines.find? fun line => line.offset = offset).map Line.record
  lineBound := lines.length

/-- The view of some lines answers for these lines. -/
theorem lineView_indexed {lines : List Line}
    (ascending : lines.Pairwise fun line later => line.offset < later.offset) :
    Indexed (lineView lines) lines where
  ascending := ascending
  postings _ _ := rfl
  bound := le_rfl
  recordAt line member := by
    simp only [lineView]
    induction lines with
    | nil => simp at member
    | cons head tail ih =>
        obtain ⟨before, ascending⟩ := List.pairwise_cons.mp ascending
        rcases List.mem_cons.mp member with rfl | member
        · simp
        · have later := before line member
          rw [List.find?_cons_of_neg (by simpa using Nat.ne_of_lt later)]
          exact ih ascending member

namespace Indexed

variable {view : IndexView} {lines : List Line} (indexed : Indexed view lines)

include indexed

/-- A posting is the offset of a line whose record has the key. -/
theorem mem_postings {table : Table} {key : String} {offset : Nat} :
    offset ∈ view.postings table key ↔
      ∃ line ∈ lines, line.offset = offset ∧ key ∈ table.keys line.record := by
  rw [indexed.postings]
  simp only [List.mem_map, List.mem_filter, decide_eq_true_eq]
  constructor
  · rintro ⟨line, ⟨member, filed⟩, rfl⟩
    exact ⟨line, member, rfl, filed⟩
  · rintro ⟨line, member, rfl, filed⟩
    exact ⟨line, ⟨member, filed⟩, rfl⟩

/-- Whether a node is an import is read off the records with its ID. -/
theorem nodeIsImportKind_eq (id : String) :
    view.nodeIsImportKind id = importNode (lines.map Line.record) id := by
  rw [IndexView.nodeIsImportKind, importNode, Bool.eq_iff_iff, List.any_eq_true, List.any_eq_true]
  constructor
  · rintro ⟨record, found, kind⟩
    obtain ⟨offset, posted, read⟩ := List.mem_filterMap.mp found
    obtain ⟨line, member, rfl, filed⟩ := indexed.mem_postings.mp posted
    rw [indexed.recordAt line member] at read
    obtain rfl := Option.some.inj read
    exact ⟨line.record, List.mem_map_of_mem member, by simp_all⟩
  · rintro ⟨record, found, matching⟩
    obtain ⟨line, member, rfl⟩ := List.mem_map.mp found
    simp only [Bool.and_eq_true, decide_eq_true_eq] at matching
    refine ⟨line.record, List.mem_filterMap.mpr ⟨line.offset, ?_, indexed.recordAt line member⟩,
      by simpa using matching.2⟩
    exact indexed.mem_postings.mpr ⟨line, member, rfl, by simpa using matching.1⟩

/-- The view and the records agree on the edges that hold a node. -/
theorem isParentEdge_eq (node : String) (edge : EdgeRecord) :
    view.isParentEdge node edge = true ↔
      edge.target = node ∧ containment (lines.map Line.record) edge = true := by
  simp only [IndexView.isParentEdge, Bool.and_eq_true, decide_eq_true_eq, containment]
  constructor
  · rintro ⟨rfl, contained⟩
    refine ⟨rfl, ?_⟩
    revert contained
    cases edge.label <;> simp [indexed.nodeIsImportKind_eq]
  · rintro ⟨rfl, contained⟩
    refine ⟨rfl, ?_⟩
    revert contained
    cases edge.label <;> simp [indexed.nodeIsImportKind_eq]

/-- They agree on where these edges are. -/
theorem mem_parentEdges {node : String} {offset : Nat} {edge : EdgeRecord} :
    (offset, edge) ∈ view.parentEdges node ↔
      (⟨offset, .edge edge⟩ : Line) ∈ lines ∧ edge.target = node ∧
        containment (lines.map Line.record) edge = true := by
  rw [IndexView.parentEdges, List.mem_filterMap]
  constructor
  · rintro ⟨posted, listed, read⟩
    obtain ⟨line, member, rfl, filed⟩ := indexed.mem_postings.mp listed
    obtain ⟨offset', record⟩ := line
    rw [indexed.recordAt _ member] at read
    cases record with
    | edge found =>
        simp only at read
        split at read
        · next parent =>
            obtain ⟨rfl, rfl⟩ := Prod.mk.inj (Option.some.inj read)
            exact ⟨member, (indexed.isParentEdge_eq node found).mp parent⟩
        · cases read
    | _ => simp at read
  · rintro ⟨member, target, contained⟩
    refine ⟨offset, indexed.mem_postings.mpr ⟨_, member, rfl, ?_⟩, ?_⟩
    · simp [GraphRecord.touches, target]
    · rw [indexed.recordAt _ member]
      simp [(indexed.isParentEdge_eq node edge).mpr ⟨target, contained⟩]

/-- So they agree on the parents of a node. -/
theorem mem_climbParents {node parent : String} :
    parent ∈ view.climbParents node ↔ ParentOf (lines.map Line.record) node parent := by
  simp only [IndexView.climbParents, List.mem_map, Prod.exists, ParentOf]
  constructor
  · rintro ⟨offset, edge, listed, rfl⟩
    obtain ⟨member, target, contained⟩ := indexed.mem_parentEdges.mp listed
    exact ⟨edge, ⟨_, member, rfl⟩, target, rfl, contained⟩
  · rintro ⟨edge, ⟨line, member, same⟩, target, rfl, contained⟩
    obtain ⟨offset, record⟩ := line
    obtain rfl : record = .edge edge := same
    exact ⟨offset, edge, indexed.mem_parentEdges.mpr ⟨member, target, contained⟩, rfl⟩

/-- So climbing the view reaches the ancestors of the records. -/
theorem reaches_iff {node ancestor : String} :
    Reaches view.climbParents node ancestor ↔ Ancestor (lines.map Line.record) node ancestor := by
  have same : (fun node parent => parent ∈ view.climbParents node) =
      ParentOf (lines.map Line.record) := by
    funext node parent
    exact propext indexed.mem_climbParents
  rw [Reaches, Ancestor, same]

end Indexed

end Egregore
