import Egregore.Base.Worklist
import Egregore.GraphIndex.Build

/-!
# Closure walks

`closure_offsets_in`: the offsets a selector's lane needs, over any view of an
index. The climb through containment parents is a `Base.walk`; its fuel is a
bound on the number of lines, which is more than it can push.
-/

namespace Egregore

open Base

/-- `IndexView`, with a bound on the number of lines it indexes. -/
structure IndexView where
  postings : Table → String → List Nat
  recordAt : Nat → Option GraphRecord
  lineBound : Nat

/-- `MemView`: an index body and the graph bytes, both in memory. -/
def memView (serde : SerdeJson) (body : GraphIndexBody) (bytes : Bytes) : IndexView where
  postings table key := (body.map table)[key]?.getD []
  recordAt := readRecordAt serde bytes
  lineBound := bytes.length

/-- Which records a lane needs. -/
inductive Selector where
  | whole
  | byId (id : String)
  | byName (name : String)
  | byPath (path : String)
  | byKind (kind : String)
  | anchored (id : String)
  | lineage (id : String)
  deriving DecidableEq, Repr

/-- A set of byte offsets. -/
abbrev OffsetSet := Std.ExtTreeSet Nat

/-- The state of one walk. -/
structure Closure where
  offsets : OffsetSet := ∅
  expanded : List String := []
  climbed : List String := []

namespace IndexView

variable (view : IndexView)

/-- One posting of `ids_at`. -/
def insertIdAt (ids : StrSet) (offset : Nat) : StrSet :=
  match view.recordAt offset with
  | some record => ids.insert record.id
  | none => ids

/-- `ids_at`: the ids of the records at a key's offsets, sorted. -/
def idsAt (table : Table) (key : String) : List String :=
  ((view.postings table key).foldl view.insertIdAt ∅).toList

/-- `add_edge`: an edge's line and every tombstone that retracts it. -/
def addEdge (offsets : OffsetSet) (offset : Nat) (edgeId : String) : OffsetSet :=
  (offsets.insert offset).insertMany (view.postings .deletedId edgeId)

/-- `add_id_versions`: every version of an id and every tombstone that retracts it. -/
def addIdVersions (offsets : OffsetSet) (id : String) : OffsetSet :=
  (offsets.insertMany (view.postings .byId id)).insertMany (view.postings .deletedId id)

/-- `node_is_import_kind`. -/
def nodeIsImportKind (id : String) : Bool :=
  ((view.postings .byId id).filterMap view.recordAt).any fun record =>
    record.nodeKind? = some .importDecl

/-- An edge that points at `node` with a containment label. -/
def isParentEdge (node : String) (edge : EdgeRecord) : Bool :=
  edge.target = node &&
    match edge.label with
    | .contains | .defines => true
    | .imports => view.nodeIsImportKind node
    | _ => false

/-- The containment edges into `node`, with their offsets. -/
def parentEdges (node : String) : List (Nat × EdgeRecord) :=
  (view.postings .adjacency node).filterMap fun offset =>
    match view.recordAt offset with
    | some (.edge edge) => if view.isParentEdge node edge then some (offset, edge) else none
    | _ => none

/-- The stack pushes of one climbed node. -/
def climbParents (node : String) : List String :=
  (view.parentEdges node).map fun (_, edge) => edge.source

/-- The offsets one climbed node adds. -/
def climbVisit (node : String) (offsets : OffsetSet) : OffsetSet :=
  (view.parentEdges node).foldl (fun offsets (offset, edge) =>
    (view.addIdVersions (view.addEdge offsets offset edge.id) edge.source).insertMany
      (view.postings .adjacency edge.source)) offsets

/-- `climb_ancestry`. -/
def climbAncestry (closure : Closure) (id : String) : Closure :=
  let (climbed, offsets) :=
    walk view.climbParents view.climbVisit (view.lineBound + 1) [id] closure.climbed
      closure.offsets
  { closure with climbed := climbed, offsets := offsets }

/-- One incident edge of an expanded id; `wide` also pulls the neighbour's edges. -/
def expandEdge (wide : Bool) (id : String) (closure : Closure) (edgeOffset : Nat) : Closure :=
  let closure := { closure with offsets := closure.offsets.insert edgeOffset }
  match view.recordAt edgeOffset with
  | some (.edge edge) =>
      let other := if edge.source = id then edge.target else edge.source
      let offsets := view.addIdVersions (view.addEdge closure.offsets edgeOffset edge.id) other
      let offsets :=
        if wide then offsets.insertMany (view.postings .adjacency other) else offsets
      view.climbAncestry { closure with offsets := offsets } other
  | _ => closure

/-- Versions, incident edges with their neighbours, then the id's own ancestry:
the body `expand_by_id` and `anchor` share. -/
def expandId (wide : Bool) (closure : Closure) (id : String) : Closure :=
  let closure := { closure with offsets := view.addIdVersions closure.offsets id }
  let closure := (view.postings .adjacency id).foldl (view.expandEdge wide id) closure
  view.climbAncestry closure id

/-- `expand_by_id`. -/
def expandById (closure : Closure) (id : String) : Closure :=
  if id ∈ closure.expanded then closure
  else view.expandId true { closure with expanded := id :: closure.expanded } id

/-- `anchor`. -/
def anchor (closure : Closure) (id : String) : Closure :=
  view.expandId false closure id

/-- The walk of a selector; nothing for `Whole`. -/
def selectorWalk : Selector → Option Closure
  | .whole => none
  | .byId id => some (view.expandById {} id)
  | .byName name => some ((view.idsAt .name name).foldl view.expandById {})
  | .byPath path =>
      let ids := view.idsAt .path path
      let closure := ids.foldl (fun (closure : Closure) id =>
        { closure with offsets := view.addIdVersions closure.offsets id }) {}
      some (ids.foldl view.climbAncestry closure)
  | .byKind kind =>
      some ((view.idsAt .kind kind).foldl (fun (closure : Closure) id =>
        { closure with offsets := view.addIdVersions closure.offsets id }) {})
  | .anchored id => some (view.anchor {} id)
  | .lineage id =>
      some (view.climbAncestry { offsets := view.addIdVersions ∅ id } id)

/-- `closure_offsets_in`: the walk's offsets, ascending. -/
def closureOffsetsIn (selector : Selector) : Option (List Nat) :=
  (view.selectorWalk selector).map fun closure => closure.offsets.toList

end IndexView

/-- `GraphIndex::closure_offsets`. -/
def GraphIndex.closureOffsets (serde : SerdeJson) (index : GraphIndex) (selector : Selector)
    (graphBytes : Bytes) : Option (List Nat) :=
  (memView serde index.body graphBytes).closureOffsetsIn selector

/-- The records at a closure's offsets, ascending; nothing when a line does not read. -/
def GraphIndex.hydrate (serde : SerdeJson) (index : GraphIndex) (selector : Selector)
    (graphBytes : Bytes) : Option (List GraphRecord) :=
  (index.closureOffsets serde selector graphBytes).bind fun offsets =>
    offsets.mapM (readRecordAt serde graphBytes)

end Egregore
