import Egregore.Base.BinarySearch
import Egregore.GraphIndex.Body

/-!
# On-disk index format

The byte form of an index: an 89-byte header, a newline, a directory of six
tables, and the tables, each of a count, fixed-width entries, a key blob and a
posting blob. `parse` reads a whole file into memory; `FileTable` searches one
table in place. Machine integers are naturals with the source's width checks.
-/

namespace Egregore

open Base

def indexFormatVersion : Nat := 2
def indexMagic : Bytes := [0x45, 0x47, 0x49, 0x58]
def headerLen : Nat := 4 + 4 + 8 + 32 + 8 + 32 + 1
def dirEntryLen : Nat := 16
def tableCount : Nat := 6
def preambleLen : Nat := headerLen + 1 + tableCount * dirEntryLen
def entryLen : Nat := 24

/-- `u32::try_from(n).unwrap_or(u32::MAX)`. -/
def saturateU32 (value : Nat) : Nat := if value < 2 ^ 32 then value else 2 ^ 32 - 1

/-- The three blobs `encode_table` grows. -/
structure TableBlobs where
  entries : Bytes
  keys : Bytes
  posts : Bytes

/-- One round of `encode_table`. -/
def encodeEntry (head keysTotal : Nat) (blobs : TableBlobs) (row : String × List Nat) :
    TableBlobs :=
  let keyOff := head + blobs.keys.length
  let postOff := head + keysTotal + blobs.posts.length
  { entries := blobs.entries ++ (leBytes 8 keyOff ++
      leBytes 4 (saturateU32 (asBytes row.1).length) ++
      leBytes 4 (saturateU32 row.2.length) ++ leBytes 8 postOff)
    keys := blobs.keys ++ asBytes row.1
    posts := blobs.posts ++ row.2.flatMap (leBytes 8) }

/-- `encode_table`, on the rows of the map in key order. -/
def encodeRows (rows : List (String × List Nat)) : Bytes :=
  let head := 8 + rows.length * entryLen
  let keysTotal := (rows.map fun row => (asBytes row.1).length).sum
  let blobs := rows.foldl (encodeEntry head keysTotal) ⟨leBytes 8 rows.length, [], []⟩
  blobs.entries ++ blobs.keys ++ blobs.posts

def encodeTable (map : PostingMap) : Bytes := encodeRows map.toList

/-- The directory: the offset and length of each table, back to back. -/
def encodeDirectory : Nat → List Bytes → Bytes
  | _, [] => []
  | offset, table :: tables =>
      leBytes 8 offset ++ leBytes 8 table.length ++
        encodeDirectory (offset + table.length) tables

/-- `GraphIndex::to_bytes`. -/
def GraphIndex.toBytes (index : GraphIndex) : Bytes :=
  let tables := Table.all.map fun table => encodeTable (index.body.map table)
  indexMagic ++ leBytes 4 indexFormatVersion ++ leBytes 8 index.graphLen ++
    index.graphBlake3.1 ++ leBytes 8 index.graphStatStamp ++ index.sampleFingerprint.1 ++
    [if index.body.hasTemporalHistory then 1 else 0] ++ [newline] ++
    encodeDirectory preambleLen tables ++ tables.flatten

/-- `u32_at`. -/
def u32At (bytes : Bytes) (start : Nat) : Nat := ofLe (slice bytes start 4)

/-- `u64_at`. -/
def u64At (bytes : Bytes) (start : Nat) : Nat := ofLe (slice bytes start 8)

/-- `LoadError`, as far as parsing raises it. -/
inductive LoadError where
  | corrupt (message : String)
  | versionMismatch (found expected : Nat)
  deriving DecidableEq, Repr

/-- The fixed header fields and the table directory. -/
structure Header where
  graphLen : Nat
  graphBlake3 : Digest
  graphStatStamp : Nat
  sampleFingerprint : Digest
  hasTemporalHistory : Bool
  tables : List (Nat × Nat)

/-- `parse_header`. -/
def parseHeader (bytes : Bytes) : Except LoadError Header :=
  if bytes.length < 8 then .error (.corrupt "file shorter than header")
  else if slice bytes 0 4 ≠ indexMagic then .error (.corrupt "bad magic")
  else if u32At bytes 4 ≠ indexFormatVersion then
    .error (.versionMismatch (u32At bytes 4) indexFormatVersion)
  else if long : bytes.length < preambleLen then .error (.corrupt "file shorter than header")
  else if slice bytes headerLen 1 ≠ [newline] then
    .error (.corrupt "missing header separator")
  else
    have room : ∀ start, start + 32 ≤ 88 → (slice bytes start 32).length = 32 := by
      intro start inside
      refine length_slice ?_
      have : preambleLen = 186 := rfl
      omega
    .ok {
      graphLen := u64At bytes 8
      graphBlake3 := ⟨slice bytes 16 32, room 16 (by decide)⟩
      graphStatStamp := u64At bytes 48
      sampleFingerprint := ⟨slice bytes 56 32, room 56 (by decide)⟩
      hasTemporalHistory := slice bytes 88 1 ≠ [0]
      tables := (List.range tableCount).map fun slot =>
        let start := headerLen + 1 + slot * dirEntryLen
        (u64At bytes start, u64At bytes (start + 8)) }

/-- A decoded table entry. -/
structure Entry where
  keyOff : Nat
  keyLen : Nat
  postCnt : Nat
  postOff : Nat
  deriving DecidableEq, Repr

/-- `decode_entry`. -/
def decodeEntry (raw : Bytes) : Entry :=
  ⟨u64At raw 0, u32At raw 8, u32At raw 12, u64At raw 16⟩

/-- `bytes.get(start..end)`. -/
def getRange (bytes : Bytes) (start stop : Nat) : Option Bytes :=
  if start ≤ stop ∧ stop ≤ bytes.length then some (slice bytes start (stop - start)) else none

/-- The first `count` little-endian words of eight bytes. -/
def leWords : Nat → Bytes → List Nat
  | 0, _ => []
  | count + 1, bytes => ofLe (bytes.take 8) :: leWords count (bytes.drop 8)

/-- `chunks_exact(8)` decoded. -/
def decodeWords (bytes : Bytes) : List Nat := leWords (bytes.length / 8) bytes

/-- `usize::checked_add` and `checked_mul`, on values below `2^64`. -/
def checkedU64 (value : Nat) : Option Nat := if value < 2 ^ 64 then some value else none

/-- One row of `decode_table`. -/
def decodeRow (raw : Bytes) (index : Nat) : Except String (String × List Nat) := do
  let entry := decodeEntry (slice raw (8 + index * entryLen) entryLen)
  let keyBytes ← match (checkedU64 (entry.keyOff + entry.keyLen)).bind (getRange raw entry.keyOff) with
    | some key => .ok key
    | none => .error "key outside the table"
  let key ← match fromUtf8 keyBytes with
    | some key => .ok key
    | none => .error "key is not UTF-8"
  let posts ← match (checkedU64 (entry.postOff + entry.postCnt * 8)).bind
      (getRange raw entry.postOff) with
    | some posts => .ok posts
    | none => .error "postings outside the table"
  return (key, decodeWords posts)

/-- The loop of `decode_table`, over the entry indexes. -/
def decodeRows (raw : Bytes) : List Nat → PostingMap → Except String PostingMap
  | [], map => .ok map
  | index :: rest, map =>
      match decodeRow raw index with
      | .error message => .error message
      | .ok (key, posts) => decodeRows raw rest (map.insert key posts)

/-- `decode_table`. -/
def decodeTable (raw : Bytes) : Except String PostingMap :=
  if raw.length < 8 then .error "table shorter than its count"
  else
    let count := u64At raw 0
    match (checkedU64 (count * entryLen)).bind fun size => checkedU64 (size + 8) with
    | none => .error "table entries exceed the table"
    | some head =>
        if head ≤ raw.length then decodeRows raw (List.range count) ∅
        else .error "table entries exceed the table"

/-- One table of `GraphIndex::parse`. -/
def parseTable (bytes : Bytes) (tables : List (Nat × Nat)) (table : Table) :
    Except LoadError PostingMap :=
  let (start, len) := tables.getD table.slot (0, 0)
  match (checkedU64 (start + len)).bind (getRange bytes start) with
  | none => .error (.corrupt "table outside the file")
  | some range =>
      match decodeTable range with
      | .ok map => .ok map
      | .error message => .error (.corrupt ("table: " ++ message))

/-- `GraphIndex::parse`. -/
def GraphIndex.parse (bytes : Bytes) : Except LoadError GraphIndex := do
  let header ← parseHeader bytes
  let byId ← parseTable bytes header.tables .byId
  let byDeletedId ← parseTable bytes header.tables .deletedId
  let byName ← parseTable bytes header.tables .name
  let byPath ← parseTable bytes header.tables .path
  let byKind ← parseTable bytes header.tables .kind
  let adjacency ← parseTable bytes header.tables .adjacency
  return {
    graphLen := header.graphLen
    graphBlake3 := header.graphBlake3
    graphStatStamp := header.graphStatStamp
    sampleFingerprint := header.sampleFingerprint
    body := {
      byId := byId
      byDeletedId := byDeletedId
      byName := byName
      byPath := byPath
      byKind := byKind
      adjacency := adjacency
      hasTemporalHistory := header.hasTemporalHistory } }

/-- A failed read of an index file. -/
inductive ReadError where
  | corrupt (message : String)
  | unexpectedEof
  deriving DecidableEq, Repr

/-- `read_exact_at`; an empty read never fails. -/
def readExactAt (file : Bytes) (len offset : Nat) : Except ReadError Bytes :=
  if len = 0 ∨ offset + len ≤ file.length then .ok (slice file offset len)
  else .error .unexpectedEof

/-- One table of an index file, read in place. -/
structure FileTable where
  file : Bytes
  start : Nat
  len : Nat

namespace FileTable

/-- `FileTable::count`. -/
def count (table : FileTable) : Except ReadError Nat :=
  if table.len < 8 then .error (.corrupt "table shorter than its count")
  else do
    let raw ← readExactAt table.file 8 table.start
    let count := ofLe raw
    match (checkedU64 (count * entryLen)).bind fun size => checkedU64 (size + 8) with
    | none => .error (.corrupt "table count overflows")
    | some entries =>
        if table.len < entries then .error (.corrupt "table entries exceed the table")
        else .ok count

/-- `FileTable::entry`. -/
def entry (table : FileTable) (index : Nat) : Except ReadError Entry := do
  let raw ← readExactAt table.file entryLen (table.start + 8 + index * entryLen)
  let entry := decodeEntry raw
  let inside := fun (stop : Option Nat) => stop.any fun stop => stop ≤ table.len
  if inside (checkedU64 (entry.keyOff + entry.keyLen)) &&
      inside ((checkedU64 (entry.postCnt * 8)).bind fun size => checkedU64 (size + entry.postOff))
  then return entry
  else .error (.corrupt "table entry points outside the table")

/-- `FileTable::key`. -/
def key (table : FileTable) (entry : Entry) : Except ReadError Bytes :=
  readExactAt table.file entry.keyLen (table.start + entry.keyOff)

/-- `FileTable::postings`. -/
def postings (table : FileTable) (entry : Entry) : Except ReadError (List Nat) := do
  let raw ← readExactAt table.file (entry.postCnt * 8) (table.start + entry.postOff)
  return decodeWords raw

/-- How the key of an entry compares with the key sought. -/
def probe (table : FileTable) (key : String) (index : Nat) : Except ReadError Ordering := do
  let entry ← table.entry index
  let found ← table.key entry
  return compare found (asBytes key)

/-- `FileTable::lookup`. -/
def lookup (table : FileTable) (key : String) : Except ReadError (List Nat) := do
  let count ← table.count
  match ← binarySearch (table.probe key) count 0 count with
  | some index => do
      let entry ← table.entry index
      table.postings entry
  | none => return []

end FileTable

/-- What `LazyGraphIndex::open` reads of the index file: the preamble, and whether every
table of the directory lies in the file. -/
def openIndex (idx : Bytes) : Except LoadError Header := do
  let header ← parseHeader (idx.take preambleLen)
  if header.tables.all fun (start, len) =>
      (checkedU64 (start + len)).any fun stop => stop ≤ idx.length then
    return header
  else .error (.corrupt "table outside the file")

/-- `FileView::table`. -/
def fileTable (idx : Bytes) (tables : List (Nat × Nat)) (table : Table) : FileTable :=
  let (start, len) := tables.getD table.slot (0, 0)
  ⟨idx, start, len⟩

end Egregore
