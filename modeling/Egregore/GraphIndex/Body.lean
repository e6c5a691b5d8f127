import Egregore.Base.ByteString
import Egregore.Base.OrderedMap
import Egregore.Jsonl
import Mathlib.Data.List.Destutter
import Mathlib.Data.List.Sort

/-!
# Sidecar index body

`graph_index.rs`: six lookup tables from keys to line offsets, and the pass over
a graph's bytes that fills them. The hash function is a parameter.
-/

namespace Egregore

open Base

/-- The six lookup tables, in on-disk order. -/
inductive Table where
  | byId | deletedId | name | path | kind | adjacency
  deriving DecidableEq, Repr

namespace Table

/-- `TABLES`. -/
def all : List Table := [byId, deletedId, name, path, kind, adjacency]

def slot : Table → Nat
  | byId => 0
  | deletedId => 1
  | name => 2
  | path => 3
  | kind => 4
  | adjacency => 5

/-- The keys a record is filed under in a table. -/
def keys : Table → GraphRecord → List String
  | byId, record => [record.id]
  | deletedId, .tombstone record => [record.deletedId]
  | name, .node record => record.name.toList
  | path, .node record => record.repoRelativePath.toList
  | kind, .node record => [record.kind.asStr]
  | adjacency, .edge record =>
      if record.target ≠ record.source then [record.source, record.target] else [record.source]
  | _, _ => []

end Table

/-- A lookup table: keys to line-start byte offsets. -/
abbrev PostingMap := StrMap (List Nat)

/-- The in-memory form of an index. -/
structure GraphIndexBody where
  byId : PostingMap := ∅
  byDeletedId : PostingMap := ∅
  byName : PostingMap := ∅
  byPath : PostingMap := ∅
  byKind : PostingMap := ∅
  adjacency : PostingMap := ∅
  hasTemporalHistory : Bool := false

namespace GraphIndexBody

def map (body : GraphIndexBody) : Table → PostingMap
  | .byId => body.byId
  | .deletedId => body.byDeletedId
  | .name => body.byName
  | .path => body.byPath
  | .kind => body.byKind
  | .adjacency => body.adjacency

/-- The body with every table rewritten, as a loop over `map_mut` does. -/
def mapTables (body : GraphIndexBody) (rewrite : PostingMap → PostingMap) : GraphIndexBody where
  byId := rewrite body.byId
  byDeletedId := rewrite body.byDeletedId
  byName := rewrite body.byName
  byPath := rewrite body.byPath
  byKind := rewrite body.byKind
  adjacency := rewrite body.adjacency
  hasTemporalHistory := body.hasTemporalHistory

@[simp] theorem map_mapTables (body : GraphIndexBody) (rewrite : PostingMap → PostingMap)
    (table : Table) : (body.mapTables rewrite).map table = rewrite (body.map table) := by
  cases table <;> rfl

@[simp] theorem hasTemporalHistory_mapTables (body : GraphIndexBody)
    (rewrite : PostingMap → PostingMap) :
    (body.mapTables rewrite).hasTemporalHistory = body.hasTemporalHistory := rfl

@[simp] theorem map_withHistory (body : GraphIndexBody) (flag : Bool) (table : Table) :
    ({ body with hasTemporalHistory := flag } : GraphIndexBody).map table = body.map table := by
  cases table <;> rfl

end GraphIndexBody

/-- `entry(key).or_default().push(offset)`. -/
def pushPosting (map : PostingMap) (key : String) (offset : Nat) : PostingMap :=
  map.alter key fun postings => some (postings.getD [] ++ [offset])

/-- `record_is_history_signal`. -/
def recordIsHistorySignal : GraphRecord → Bool
  | .node record => record.temporal.isSome || record.kind = .commit
  | .edge record => record.temporal.isSome
  | .tombstone _ => false

/-- `index_record`: one record's contribution to the maps. -/
def indexRecord (body : GraphIndexBody) (record : GraphRecord) (offset : Nat) : GraphIndexBody :=
  let body := { body with byId := pushPosting body.byId record.id offset }
  match record with
  | .node record =>
      let body := { body with byKind := pushPosting body.byKind record.kind.asStr offset }
      let body := match record.name with
        | some name => { body with byName := pushPosting body.byName name offset }
        | none => body
      match record.repoRelativePath with
      | some path => { body with byPath := pushPosting body.byPath path offset }
      | none => body
  | .edge record =>
      let body := { body with adjacency := pushPosting body.adjacency record.source offset }
      if record.target ≠ record.source then
        { body with adjacency := pushPosting body.adjacency record.target offset }
      else body
  | .tombstone record =>
      { body with byDeletedId := pushPosting body.byDeletedId record.deletedId offset }

/-- `sort_unstable` followed by `dedup`. -/
def sortDedup (offsets : List Nat) : List Nat :=
  (offsets.insertionSort (· ≤ ·)).destutter (· ≠ ·)

/-- A 32-byte hash. -/
abbrev Digest := { bytes : Bytes // bytes.length = 32 }

/-- A parsed sidecar index: the content-addressing header and the offset body. -/
structure GraphIndex where
  graphLen : Nat
  graphBlake3 : Digest
  graphStatStamp : Nat
  sampleFingerprint : Digest
  body : GraphIndexBody

/-- Why a line stops a build. -/
inductive LineFault where
  | invalidUtf8
  | unknownSchemaVersion (unknown : UnknownSchemaVersion)
  | unreadable (fault : RecordReadError)
  deriving DecidableEq, Repr

/-- `BuildError::Line`, at a 1-based line number. -/
structure BuildError where
  line : Nat
  fault : LineFault
  deriving DecidableEq, Repr

def sampleBlock : Nat := 4096
def sampleBlocks : Nat := 64

/-- `sample_ranges`: the `(offset, length)` ranges the fingerprint covers. -/
def sampleRanges (len : Nat) : List (Nat × Nat) :=
  let block := fun offset => (offset, min sampleBlock (len - offset))
  if len = 0 then []
  else
    [block 0] ++
      (List.range (sampleBlocks - 1)).map (fun i =>
        block (min (len * (i + 1) / sampleBlocks) (len - 1))) ++
      [block (len - sampleBlock)]

/-- `sample_fingerprint_bytes`. -/
def sampleFingerprintBytes (blake3 : Bytes → Digest) (bytes : Bytes) : Digest :=
  blake3 (leBytes 8 bytes.length ++
    (sampleRanges bytes.length).flatMap fun (offset, size) =>
      leBytes 8 offset ++ slice bytes offset size)

/-- A physical line without its `\n` and optional `\r`. -/
def lineContent (rawLine : Bytes) : Bytes :=
  stripSuffix carriageReturn (stripSuffix newline rawLine)

/-- The loop of `build_from_bytes`, from byte `cursor` and line `lineNo`. -/
def buildLines (serde : SerdeJson) :
    Nat → Nat → List Bytes → GraphIndexBody → Except BuildError GraphIndexBody
  | _, _, [], body => .ok body
  | cursor, lineNo, rawLine :: rest, body =>
      match fromUtf8 (lineContent rawLine) with
      | none => .error ⟨lineNo, .invalidUtf8⟩
      | some text =>
          if isBlank text then buildLines serde (cursor + rawLine.length) (lineNo + 1) rest body
          else
            match readRecordLine serde text with
            | .error fault => .error ⟨lineNo, .unreadable fault⟩
            | .ok (.unknownSchemaVersion unknown) =>
                .error ⟨lineNo, .unknownSchemaVersion unknown⟩
            | .ok (.record record) =>
                let body :=
                  if recordIsHistorySignal record then { body with hasTemporalHistory := true }
                  else body
                buildLines serde (cursor + rawLine.length) (lineNo + 1) rest
                  (indexRecord body record cursor)

/-- `GraphIndex::build_from_bytes`. -/
def buildFromBytes (serde : SerdeJson) (blake3 : Bytes → Digest) (bytes : Bytes) :
    Except BuildError GraphIndex := do
  let body ← buildLines serde 0 1 (splitInclusive (· = newline) bytes) {}
  return {
    graphLen := bytes.length
    graphBlake3 := blake3 bytes
    graphStatStamp := 0
    sampleFingerprint := sampleFingerprintBytes blake3 bytes
    body := body.mapTables fun map => map.map fun _ offsets => sortDedup offsets }

end Egregore
