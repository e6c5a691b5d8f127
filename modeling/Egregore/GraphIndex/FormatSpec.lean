import Egregore.GraphIndex.Format
import Mathlib.Algebra.Order.Group.Nat

/-!
# The index format round trip

`toBytes` lays every blob where the offsets it writes say it is. From that, `parse`
gives the index back and a search in place returns the postings the in-memory table
holds. `index_file_roundTrip` is for every index whose sizes fit the fields of the
format; opening the file reads the header alone, and each lookup goes by the offsets
there.
-/

namespace Egregore

open Base

/-- The bytes of one entry. -/
def entryBytes (keyOff : Nat) (row : String × List Nat) (postOff : Nat) : Bytes :=
  leBytes 8 keyOff ++ leBytes 4 (saturateU32 (asBytes row.1).length) ++
    leBytes 4 (saturateU32 row.2.length) ++ leBytes 8 postOff

/-- The entries of `rows`, after key and posting blobs of the given lengths. -/
def entriesFrom (head keysTotal : Nat) : Nat → Nat → List (String × List Nat) → Bytes
  | _, _, [] => []
  | keyLen, postLen, row :: rows =>
      entryBytes (head + keyLen) row (head + keysTotal + postLen) ++
        entriesFrom head keysTotal (keyLen + (asBytes row.1).length)
          (postLen + row.2.length * 8) rows

def keyBlob (rows : List (String × List Nat)) : Bytes := rows.flatMap fun row => asBytes row.1

def postBlob (rows : List (String × List Nat)) : Bytes :=
  rows.flatMap fun row => row.2.flatMap (leBytes 8)

/-- What the format can hold of a row. -/
structure RowFits (row : String × List Nat) : Prop where
  key : (asBytes row.1).length < 2 ^ 32
  posts : row.2.length < 2 ^ 32
  offsets : ∀ offset ∈ row.2, offset < 2 ^ 64

instance (row : String × List Nat) : Decidable (RowFits row) :=
  decidable_of_iff ((asBytes row.1).length < 2 ^ 32 ∧ row.2.length < 2 ^ 32 ∧
      ∀ offset ∈ row.2, offset < 2 ^ 64)
    ⟨fun ⟨key, posts, offsets⟩ => ⟨key, posts, offsets⟩,
      fun fits => ⟨fits.key, fits.posts, fits.offsets⟩⟩

/-- An entry has its fixed size. -/
@[simp] theorem length_entryBytes (keyOff postOff : Nat) (row : String × List Nat) :
    (entryBytes keyOff row postOff).length = entryLen := by
  simp [entryBytes, entryLen]

/-- So the entries have as many bytes as their number gives. -/
@[simp] theorem length_entriesFrom (head keysTotal keyLen postLen : Nat)
    (rows : List (String × List Nat)) :
    (entriesFrom head keysTotal keyLen postLen rows).length = rows.length * entryLen := by
  induction rows generalizing keyLen postLen with
  | nil => simp [entriesFrom]
  | cons row rows ih =>
      simp only [entriesFrom, List.length_append, length_entryBytes, ih, List.length_cons,
        Nat.succ_mul]
      omega

/-- An offset takes eight bytes. -/
@[simp] theorem length_flatMap_leBytes (offsets : List Nat) :
    (offsets.flatMap (leBytes 8)).length = offsets.length * 8 := by
  induction offsets with
  | nil => rfl
  | cons offset rest ih =>
      simp only [List.flatMap_cons, List.length_append, length_leBytes, ih, List.length_cons]
      omega

/-- The keys are written without separators. -/
theorem length_keyBlob (rows : List (String × List Nat)) :
    (keyBlob rows).length = (rows.map fun row => (asBytes row.1).length).sum := by
  simp [keyBlob, List.length_flatMap]

/-- The blobs after a run of `encode_table`'s loop. -/
theorem foldl_encodeEntry (head keysTotal : Nat) (rows : List (String × List Nat))
    (blobs : TableBlobs) :
    rows.foldl (encodeEntry head keysTotal) blobs =
      ⟨blobs.entries ++ entriesFrom head keysTotal blobs.keys.length blobs.posts.length rows,
        blobs.keys ++ keyBlob rows, blobs.posts ++ postBlob rows⟩ := by
  induction rows generalizing blobs with
  | nil => simp [entriesFrom, keyBlob, postBlob]
  | cons row rows ih =>
      rw [List.foldl_cons, ih]
      simp [encodeEntry, entriesFrom, entryBytes, keyBlob, postBlob]

/-- A table is its count, its entries, its keys and its postings. -/
theorem encodeRows_eq (rows : List (String × List Nat)) :
    encodeRows rows =
      leBytes 8 rows.length ++
        entriesFrom (8 + rows.length * entryLen) (keyBlob rows).length 0 0 rows ++
        keyBlob rows ++ postBlob rows := by
  simp [encodeRows, foldl_encodeEntry, length_keyBlob]

/-- A table is its count, its entries, its keys and its offsets. -/
theorem length_encodeRows (rows : List (String × List Nat)) :
    (encodeRows rows).length =
      8 + rows.length * entryLen + (keyBlob rows).length + (postBlob rows).length := by
  simp only [encodeRows_eq, List.length_append, length_leBytes, length_entriesFrom]

/-- The entry of a row stands after those of the rows before it. -/
theorem entriesFrom_split (head keysTotal keyLen postLen : Nat)
    (before : List (String × List Nat)) (row : String × List Nat)
    (after : List (String × List Nat)) :
    entriesFrom head keysTotal keyLen postLen (before ++ row :: after) =
      entriesFrom head keysTotal keyLen postLen before ++
        entryBytes (head + (keyLen + (keyBlob before).length)) row
          (head + keysTotal + (postLen + (postBlob before).length)) ++
        entriesFrom head keysTotal (keyLen + (keyBlob before).length + (asBytes row.1).length)
          (postLen + (postBlob before).length + row.2.length * 8) after := by
  induction before generalizing keyLen postLen with
  | nil => simp [entriesFrom, keyBlob, postBlob]
  | cons first before ih =>
      simp only [List.cons_append, entriesFrom, ih, List.append_assoc]
      simp [keyBlob, postBlob, Nat.add_assoc]

section Table

variable {rows before after : List (String × List Nat)} {row : String × List Nat}

/-- Where the parts of one row lie in its table. -/
structure RowAt (rows before : List (String × List Nat)) (row : String × List Nat) : Prop where
  entry : slice (encodeRows rows) (8 + before.length * entryLen) entryLen =
    entryBytes (8 + rows.length * entryLen + (keyBlob before).length) row
      (8 + rows.length * entryLen + (keyBlob rows).length + (postBlob before).length)
  entryInside : 8 + before.length * entryLen + entryLen ≤ (encodeRows rows).length
  key : slice (encodeRows rows) (8 + rows.length * entryLen + (keyBlob before).length)
    (asBytes row.1).length = asBytes row.1
  keyInside : 8 + rows.length * entryLen + (keyBlob before).length + (asBytes row.1).length ≤
    (encodeRows rows).length
  posts : slice (encodeRows rows)
    (8 + rows.length * entryLen + (keyBlob rows).length + (postBlob before).length)
    (row.2.length * 8) = row.2.flatMap (leBytes 8)
  postsInside : 8 + rows.length * entryLen + (keyBlob rows).length + (postBlob before).length +
    row.2.length * 8 ≤ (encodeRows rows).length

/-- A row stands behind the rows before it. -/
theorem rowAt_of_split (split : rows = before ++ row :: after) : RowAt rows before row := by
  have keys : keyBlob rows = keyBlob before ++ asBytes row.1 ++ keyBlob after := by
    simp [split, keyBlob]
  have posts : postBlob rows =
      postBlob before ++ row.2.flatMap (leBytes 8) ++ postBlob after := by
    simp [split, postBlob]
  have entriesLength : rows.length * entryLen =
      before.length * entryLen + (after.length * entryLen + entryLen) := by
    simp only [split, List.length_append, List.length_cons, Nat.add_mul, Nat.one_mul]
  have total := length_encodeRows rows
  have keysLength := congrArg List.length keys
  have postsLength := congrArg List.length posts
  simp only [List.length_append, length_flatMap_leBytes] at keysLength postsLength
  refine ⟨?_, by omega, ?_, by omega, ?_, by omega⟩
  · have entries := entriesFrom_split (8 + rows.length * entryLen) (keyBlob rows).length 0 0
      before row after
    rw [← split] at entries
    simp only [Nat.zero_add] at entries
    rw [encodeRows_eq, entries]
    generalize entriesFrom _ _ _ _ after = rest
    have shape : ∀ count first entry keys posts : Bytes,
        count ++ (first ++ entry ++ rest) ++ keys ++ posts =
          (count ++ first) ++ entry ++ (rest ++ keys ++ posts) := by simp
    rw [shape]
    exact slice_exact (by simp) (by simp)
  · rw [encodeRows_eq]
    generalize entries : entriesFrom _ _ _ _ rows = blob
    have size : blob.length = rows.length * entryLen := by simp [← entries]
    have shape : leBytes 8 rows.length ++ blob ++ keyBlob rows ++ postBlob rows =
        (leBytes 8 rows.length ++ blob ++ keyBlob before) ++ asBytes row.1 ++
          (keyBlob after ++ postBlob rows) := by simp [keys]
    rw [shape]
    exact slice_exact (by simp only [List.length_append, length_leBytes, size]) rfl
  · rw [encodeRows_eq]
    generalize entries : entriesFrom _ _ _ _ rows = blob
    have size : blob.length = rows.length * entryLen := by simp [← entries]
    have shape : leBytes 8 rows.length ++ blob ++ keyBlob rows ++ postBlob rows =
        (leBytes 8 rows.length ++ blob ++ keyBlob rows ++ postBlob before) ++
          row.2.flatMap (leBytes 8) ++ postBlob after := by simp [posts]
    rw [shape]
    exact slice_exact (by simp only [List.length_append, length_leBytes, size]) (by simp)

/-- The entry of the row after `before`. -/
def rowEntry (rows before : List (String × List Nat)) (row : String × List Nat) : Entry where
  keyOff := 8 + rows.length * entryLen + (keyBlob before).length
  keyLen := (asBytes row.1).length
  postCnt := row.2.length
  postOff := 8 + rows.length * entryLen + (keyBlob rows).length + (postBlob before).length

/-- A value that fits 32 bits is written as it is. -/
theorem saturateU32_of_lt {value : Nat} (small : value < 2 ^ 32) : saturateU32 value = value :=
  if_pos small

/-- An entry reads back as the four numbers it was written from. -/
theorem decodeEntry_entryBytes {keyOff postOff : Nat} (fits : RowFits row)
    (keyOff_lt : keyOff < 2 ^ 64) (postOff_lt : postOff < 2 ^ 64) :
    decodeEntry (entryBytes keyOff row postOff) =
      ⟨keyOff, (asBytes row.1).length, row.2.length, postOff⟩ := by
  have shape : ∀ a b c d : Bytes, a ++ b ++ c ++ d = [] ++ a ++ (b ++ c ++ d) ∧
      a ++ b ++ c ++ d = a ++ b ++ (c ++ d) := by simp
  have keyOffAt : u64At (entryBytes keyOff row postOff) 0 = keyOff := by
    rw [u64At, entryBytes, (shape _ _ _ _).1, slice_exact (by simp) (by simp)]
    exact ofLe_leBytes 8 keyOff (by omega)
  have keyLenAt : u32At (entryBytes keyOff row postOff) 8 = (asBytes row.1).length := by
    rw [u32At, entryBytes, (shape _ _ _ _).2, slice_exact (by simp) (by simp),
      saturateU32_of_lt fits.key]
    exact ofLe_leBytes 4 _ (by have := fits.key; omega)
  have postCntAt : u32At (entryBytes keyOff row postOff) 12 = row.2.length := by
    rw [u32At, entryBytes, slice_exact (by simp) (by simp), saturateU32_of_lt fits.posts]
    exact ofLe_leBytes 4 _ (by have := fits.posts; omega)
  have postOffAt : u64At (entryBytes keyOff row postOff) 16 = postOff := by
    rw [u64At, entryBytes, ← List.append_nil (_ ++ leBytes 8 postOff),
      slice_exact (by simp) (by simp)]
    exact ofLe_leBytes 8 postOff (by omega)
  rw [decodeEntry, keyOffAt, keyLenAt, postCntAt, postOffAt]

/-- Words are read back as they were written. -/
theorem decodeWords_flatMap {offsets : List Nat} (bounded : ∀ offset ∈ offsets, offset < 2 ^ 64) :
    decodeWords (offsets.flatMap (leBytes 8)) = offsets := by
  unfold decodeWords
  rw [length_flatMap_leBytes, Nat.mul_div_cancel _ (by decide)]
  induction offsets with
  | nil => rfl
  | cons offset rest ih =>
      have first : (leBytes 8 offset ++ rest.flatMap (leBytes 8)).take 8 = leBytes 8 offset :=
        List.take_left' (length_leBytes 8 offset)
      have others : (leBytes 8 offset ++ rest.flatMap (leBytes 8)).drop 8 =
          rest.flatMap (leBytes 8) := List.drop_left' (length_leBytes 8 offset)
      simp only [List.flatMap_cons, List.length_cons, leWords, first, others]
      rw [ofLe_leBytes 8 offset (by have := bounded offset (by simp); omega),
        ih fun other member => bounded other (List.mem_cons_of_mem offset member)]

/-- A table that the offset width can address, and whose rows the entries can hold. -/
structure RowsFit (rows : List (String × List Nat)) : Prop where
  row : ∀ row ∈ rows, RowFits row
  size : (encodeRows rows).length < 2 ^ 64

/-- So does the entry of a row, at its place in the table. -/
theorem decodeEntry_of_split (fits : RowsFit rows) (split : rows = before ++ row :: after) :
    decodeEntry (slice (encodeRows rows) (8 + before.length * entryLen) entryLen) =
      rowEntry rows before row := by
  have place := rowAt_of_split split
  have size := fits.size
  have keyInside := place.keyInside
  have postsInside := place.postsInside
  rw [place.entry]
  exact decodeEntry_entryBytes (fits.row row (by simp [split])) (by omega) (by omega)

/-- A product that fits 64 bits passes the overflow check. -/
theorem checkedU64_of_lt {value : Nat} (small : value < 2 ^ 64) : checkedU64 value = some value :=
  if_pos small

/-- The bytes of a text are valid. -/
@[simp] theorem fromUtf8_asBytes (text : String) : fromUtf8 (asBytes text) = some text :=
  (fromUtf8_eq_some_iff ..).mpr rfl

/-- A range inside the bytes can be read. -/
theorem getRange_of_inside {bytes : Bytes} {start length : Nat}
    (inside : start + length ≤ bytes.length) :
    getRange bytes start (start + length) = some (slice bytes start length) := by
  rw [getRange, if_pos ⟨Nat.le_add_right .., inside⟩, Nat.add_sub_cancel_left]

/-- A row is decoded from its entry, its key and its offsets. -/
theorem decodeRow_of_split (fits : RowsFit rows) (split : rows = before ++ row :: after) :
    decodeRow (encodeRows rows) before.length = .ok row := by
  have place := rowAt_of_split split
  have size := fits.size
  have keyInside := place.keyInside
  have postsInside := place.postsInside
  unfold decodeRow
  rw [decodeEntry_of_split fits split]
  simp only [rowEntry]
  rw [checkedU64_of_lt (by omega), checkedU64_of_lt (by omega), Option.bind_some, Option.bind_some,
    getRange_of_inside keyInside, getRange_of_inside postsInside, place.key, place.posts]
  simp only [bind, Except.bind, fromUtf8_asBytes]
  rw [decodeWords_flatMap (fits.row row (by simp [split])).offsets]
  rfl

/-- The loop of `decode_table` inserts the remaining rows. -/
theorem decodeRows_of_split (fits : RowsFit rows) (split : rows = before ++ after)
    (map : PostingMap) :
    decodeRows (encodeRows rows) (List.range' before.length after.length) map =
      .ok (after.foldl (insertEntry some) map) := by
  induction after generalizing before map with
  | nil => rfl
  | cons row after ih =>
      have next : rows = (before ++ [row]) ++ after := by simp [split]
      have rest := ih next (map.insert row.1 row.2)
      rw [List.length_append, List.length_singleton] at rest
      simp only [List.length_cons, List.range'_succ, decodeRows, decodeRow_of_split fits split]
      exact rest

/-- The count of a table that fits passes every check on it. -/
theorem count_of_fits (fits : RowsFit rows) :
    u64At (encodeRows rows) 0 = rows.length ∧
      checkedU64 (rows.length * entryLen) = some (rows.length * entryLen) ∧
      checkedU64 (rows.length * entryLen + 8) = some (rows.length * entryLen + 8) ∧
      rows.length * entryLen + 8 ≤ (encodeRows rows).length := by
  have size := fits.size
  have total := length_encodeRows rows
  have entries : rows.length * entryLen = rows.length * 24 := rfl
  refine ⟨?_, checkedU64_of_lt (by omega), checkedU64_of_lt (by omega), by omega⟩
  have shape : ∀ a b c d : Bytes, a ++ b ++ c ++ d = [] ++ a ++ (b ++ c ++ d) := by simp
  rw [u64At, encodeRows_eq, shape, slice_exact (by simp) (by simp)]
  exact ofLe_leBytes 8 _ (by omega)

/-- `decode_table` inserts every row of the table it is given. -/
theorem decodeTable_encodeRows (fits : RowsFit rows) :
    decodeTable (encodeRows rows) = .ok (rows.foldl (insertEntry some) ∅) := by
  obtain ⟨count, entries, head, inside⟩ := count_of_fits fits
  have whole := decodeRows_of_split fits (List.nil_append rows).symm ∅
  unfold decodeTable
  rw [if_neg (by omega)]
  simp only [count, entries, head, Option.bind_some]
  rw [if_pos inside, List.range_eq_range']
  exact whole

end Table

/-- Inserting the rows of a map one by one rebuilds the map. -/
theorem foldl_insertEntry_toList (map : PostingMap) :
    map.toList.foldl (insertEntry some) ∅ = map := by
  ext key : 1
  have stored : ∀ {row}, row ∈ map.toList → map[row.1]? = some row.2 :=
    Std.ExtTreeMap.mem_toList_iff_getElem?_eq_some.mp
  rw [getElem?_foldl_insertEntry, List.filterMap_some, Std.ExtTreeMap.getElem?_empty, Option.or_none]
  cases found : (map.toList.filter fun row => row.1 = key).getLast? with
  | none =>
      symm
      rw [List.getLast?_eq_none_iff, List.filter_eq_nil_iff] at found
      refine Option.eq_none_iff_forall_ne_some.mpr fun posts held => ?_
      exact found (key, posts) (Std.ExtTreeMap.mem_toList_iff_getElem?_eq_some.mpr held) (by simp)
  | some row =>
      have member := List.mem_of_getLast? found
      rw [List.mem_filter, decide_eq_true_eq] at member
      have := stored member.1
      rw [member.2] at this
      exact this.symm

section Place

variable {rows before after : List (String × List Nat)} {row : String × List Nat}
variable {file : Bytes} {start : Nat}

/-- The table of `rows` stands at `start` in `file`. -/
def TableAt (file : Bytes) (start : Nat) (rows : List (String × List Nat)) : Prop :=
  ∃ front back, file = front ++ encodeRows rows ++ back ∧ start = front.length

/-- A read of a table in a file is the read of its bytes. -/
theorem readExactAt_of_tableAt (place : TableAt file start rows) {offset len : Nat}
    (inside : offset + len ≤ (encodeRows rows).length) :
    readExactAt file len (start + offset) = .ok (slice (encodeRows rows) offset len) := by
  obtain ⟨front, back, rfl, rfl⟩ := place
  rw [readExactAt, if_pos (Or.inr (by simp only [List.length_append]; omega)),
    slice_append_middle front back inside]

/-- The file table over the bytes of `rows`. -/
def rowsTable (file : Bytes) (start : Nat) (rows : List (String × List Nat)) : FileTable :=
  ⟨file, start, (encodeRows rows).length⟩

/-- The table in the file has the count of its rows. -/
theorem count_rowsTable (fits : RowsFit rows) (place : TableAt file start rows) :
    (rowsTable file start rows).count = .ok rows.length := by
  obtain ⟨count, entries, head, inside⟩ := count_of_fits fits
  have read := readExactAt_of_tableAt place (by omega : 0 + 8 ≤ (encodeRows rows).length)
  have value : ofLe (slice (encodeRows rows) 0 8) = rows.length := count
  unfold FileTable.count rowsTable
  rw [Nat.add_zero] at read
  rw [if_neg (by simp only; omega), read]
  simp only [bind, Except.bind, value, entries, Option.bind_some, head]
  exact if_neg (by omega)

/-- At each place it has the entry of the row. -/
theorem entry_rowsTable (fits : RowsFit rows) (place : TableAt file start rows)
    (split : rows = before ++ row :: after) :
    (rowsTable file start rows).entry before.length = .ok (rowEntry rows before row) := by
  have at_row := rowAt_of_split split
  have size := fits.size
  have keyInside := at_row.keyInside
  have postsInside := at_row.postsInside
  have read := readExactAt_of_tableAt place at_row.entryInside
  unfold FileTable.entry
  rw [rowsTable, Nat.add_assoc, read]
  simp only [bind, Except.bind, decodeEntry_of_split fits split]
  rw [if_pos]
  · rfl
  · simp only [rowEntry]
    rw [checkedU64_of_lt (by omega), checkedU64_of_lt (by omega), Option.bind_some,
      checkedU64_of_lt (by omega)]
    simp only [Option.any_some, Bool.and_eq_true, decide_eq_true_eq]
    omega

/-- The entry leads to the key of the row. -/
theorem key_rowsTable (place : TableAt file start rows)
    (split : rows = before ++ row :: after) :
    (rowsTable file start rows).key (rowEntry rows before row) = .ok (asBytes row.1) := by
  have at_row := rowAt_of_split split
  unfold FileTable.key
  exact (readExactAt_of_tableAt place at_row.keyInside).trans (congrArg _ at_row.key)

/-- The entry leads to the offsets of the row. -/
theorem postings_rowsTable (fits : RowsFit rows) (place : TableAt file start rows)
    (split : rows = before ++ row :: after) :
    (rowsTable file start rows).postings (rowEntry rows before row) = .ok row.2 := by
  have at_row := rowAt_of_split split
  have read := (readExactAt_of_tableAt place at_row.postsInside).trans (congrArg _ at_row.posts)
  unfold FileTable.postings
  simp only [rowsTable, rowEntry, read, bind, Except.bind]
  rw [decodeWords_flatMap (fits.row row (by simp [split])).offsets]
  rfl

/-- A row at an index splits the rows there. -/
theorem split_of_getElem? {index : Nat} (found : rows[index]? = some row) :
    ∃ before after, rows = before ++ row :: after ∧ before.length = index := by
  obtain ⟨bound, rfl⟩ := List.getElem?_eq_some_iff.mp found
  refine ⟨rows.take index, rows.drop (index + 1), ?_, by simp; omega⟩
  rw [← List.drop_eq_getElem_cons bound, List.take_append_drop]

/-- The probe of an in-place search compares the keys of the rows with the one sought. -/
theorem probes_rowsTable (fits : RowsFit rows) (place : TableAt file start rows) (key : String) :
    Probes compare ((rowsTable file start rows).probe key) (rows.map fun row => asBytes row.1)
      (asBytes key) := by
  intro index found at_index
  rw [List.getElem?_map, Option.map_eq_some_iff] at at_index
  obtain ⟨row, at_row, rfl⟩ := at_index
  obtain ⟨before, after, split, rfl⟩ := split_of_getElem? at_row
  unfold FileTable.probe
  simp only [entry_rowsTable fits place split, key_rowsTable place split, bind, Except.bind]
  rfl

end Place

/-- The keys of a table ascend, as a search by halves needs them to. -/
theorem ascending_toList (map : PostingMap) :
    (map.toList.map fun row => asBytes row.1).Pairwise fun key later => compare key later = .lt := by
  rw [List.pairwise_map]
  have ordered : map.toList.Pairwise fun row later => byteOrder row.1 later.1 = .lt :=
    Std.ExtTreeMap.ordered_keys_toList
  exact ordered

/-- A search in place returns the postings the map holds. -/
theorem lookup_rowsTable {map : PostingMap} {file : Bytes} {start : Nat}
    (fits : RowsFit map.toList) (place : TableAt file start map.toList) (key : String) :
    (rowsTable file start map.toList).lookup key = .ok (map[key]?.getD []) := by
  have probes := probes_rowsTable fits place key
  have lengths : (map.toList.map fun row => asBytes row.1).length = map.toList.length := by simp
  unfold FileTable.lookup
  simp only [count_rowsTable fits place, bind, Except.bind]
  cases held : map[key]? with
  | some posts =>
      have member := Std.ExtTreeMap.mem_toList_iff_getElem?_eq_some.mpr held
      obtain ⟨index, at_index⟩ := List.mem_iff_getElem?.mp member
      have below : index < map.toList.length := (List.getElem?_eq_some_iff.mp at_index).1
      have at_key : (map.toList.map fun row => asBytes row.1)[index]? = some (asBytes key) := by
        rw [List.getElem?_map, at_index]
        rfl
      rw [binarySearch_complete (ascending_toList map) probes _ _ _ (by omega) (by omega) at_key
        Std.ReflCmp.compare_self (Nat.zero_le index) below]
      obtain ⟨before, after, split, rfl⟩ := split_of_getElem? at_index
      simp only [entry_rowsTable fits place split]
      exact postings_rowsTable fits place split
  | none =>
      obtain ⟨result, searched⟩ := binarySearch_isOk probes map.toList.length 0 map.toList.length
        (by omega)
      rw [searched]
      cases result with
      | none => rfl
      | some index =>
          obtain ⟨found, at_index, hit⟩ := binarySearch_sound probes _ _ _ (by omega) searched
          rw [List.getElem?_map, Option.map_eq_some_iff] at at_index
          obtain ⟨row, at_row, rfl⟩ := at_index
          have same : row.1 = key := asBytes_injective (Std.LawfulEqCmp.compare_eq_iff_eq.mp hit)
          have stored := Std.ExtTreeMap.mem_toList_iff_getElem?_eq_some.mp
            (List.mem_of_getElem? at_row)
          rw [same, held] at stored
          contradiction

/-- The offset and length of each of some byte strings laid back to back. -/
def spans : Nat → List Bytes → List (Nat × Nat)
  | _, [] => []
  | offset, table :: tables => (offset, table.length) :: spans (offset + table.length) tables

/-- The directory lists where each table starts and how long it is. -/
theorem spans_getD (offset : Nat) (before : List Bytes) (table : Bytes) (after : List Bytes) :
    (spans offset (before ++ table :: after)).getD before.length (0, 0) =
      (offset + before.flatten.length, table.length) := by
  induction before generalizing offset with
  | nil => simp [spans]
  | cons first before ih =>
      rw [List.cons_append, spans, List.length_cons, List.getD_cons_succ, ih]
      simp [Nat.add_assoc]

/-- No table ends after the file does. -/
theorem spans_inside {offset : Nat} {tables : List Bytes} {start len : Nat}
    (member : (start, len) ∈ spans offset tables) :
    start + len ≤ offset + tables.flatten.length := by
  induction tables generalizing offset with
  | nil => simp [spans] at member
  | cons table tables ih =>
      rw [List.flatten_cons, List.length_append]
      rcases List.mem_cons.mp member with first | later
      · obtain ⟨rfl, rfl⟩ := Prod.mk.inj first
        omega
      · have := ih later
        omega

/-- The directory has an entry of fixed size for each table. -/
@[simp] theorem length_encodeDirectory (offset : Nat) (tables : List Bytes) :
    (encodeDirectory offset tables).length = tables.length * dirEntryLen := by
  induction tables generalizing offset with
  | nil => simp [encodeDirectory]
  | cons table tables ih =>
      simp only [encodeDirectory, List.length_append, length_leBytes, ih, List.length_cons,
        Nat.succ_mul, dirEntryLen]
      omega

/-- One directory entry of `parse_header`, in the slot at `start`. -/
def readSpan (bytes : Bytes) (start : Nat) : Nat × Nat :=
  (u64At bytes start, u64At bytes (start + 8))

/-- The directory is read back slot by slot. -/
theorem readSpan_directory (front back : Bytes) (offset : Nat) (tables : List Bytes)
    (small : offset + tables.flatten.length < 2 ^ 64) :
    (List.range tables.length).map (fun slot =>
        readSpan (front ++ encodeDirectory offset tables ++ back)
          (front.length + slot * dirEntryLen)) =
      spans offset tables := by
  induction tables generalizing front offset with
  | nil => rfl
  | cons table tables ih =>
      simp only [List.flatten_cons, List.length_append] at small
      have shape : ∀ a b c d : Bytes,
          front ++ (a ++ b ++ c) ++ d = front ++ a ++ (b ++ (c ++ d)) ∧
            front ++ (a ++ b ++ c) ++ d = (front ++ a) ++ b ++ (c ++ d) ∧
            front ++ (a ++ b ++ c) ++ d = (front ++ a ++ b) ++ c ++ d := by simp
      have start : u64At (front ++ encodeDirectory offset (table :: tables) ++ back)
          front.length = offset := by
        rw [u64At, encodeDirectory, (shape _ _ _ _).1, slice_exact (by simp) (by simp)]
        exact ofLe_leBytes 8 _ (by omega)
      have len : u64At (front ++ encodeDirectory offset (table :: tables) ++ back)
          (front.length + 8) = table.length := by
        rw [u64At, encodeDirectory, (shape _ _ _ _).2.1, slice_exact (by simp) (by simp)]
        exact ofLe_leBytes 8 _ (by omega)
      have rest := ih (front ++ leBytes 8 offset ++ leBytes 8 table.length)
        (offset + table.length) (by omega)
      rw [List.length_cons, List.range_succ_eq_map, List.map_cons, List.map_map, spans, ← rest]
      rw [Nat.zero_mul, Nat.add_zero, readSpan, start, len]
      congr 1
      apply List.map_congr_left
      intro slot _
      simp only [Function.comp, encodeDirectory, (shape _ _ _ _).2.2, Nat.succ_mul]
      congr 1
      simp only [List.length_append, length_leBytes, dirEntryLen]
      omega

section File

variable (index : GraphIndex)

/-- The fixed fields before the directory. -/
def headerFields : List Bytes :=
  [indexMagic, leBytes 4 indexFormatVersion, leBytes 8 index.graphLen, index.graphBlake3.1,
    leBytes 8 index.graphStatStamp, index.sampleFingerprint.1,
    [if index.body.hasTemporalHistory then 1 else 0], [newline]]

def tableBytes : List Bytes := Table.all.map fun table => encodeTable (index.body.map table)

/-- The file is its header, its directory and its tables. -/
theorem toBytes_eq : index.toBytes =
    (headerFields index).flatten ++ encodeDirectory preambleLen (tableBytes index) ++
      (tableBytes index).flatten := by
  simp [GraphIndex.toBytes, headerFields, tableBytes]

/-- The header has its fixed size, the end of the version included. -/
@[simp] theorem length_headerFields : (headerFields index).flatten.length = headerLen + 1 := by
  simp [headerFields, index.graphBlake3.2, index.sampleFingerprint.2, indexMagic, headerLen]

/-- The number of tables is fixed. -/
@[simp] theorem length_tableBytes : (tableBytes index).length = tableCount := rfl

/-- What the format can hold of an index: every row fits its entry, and every offset and
length of the file fits eight bytes. -/
structure GraphIndex.Fits : Prop where
  graphLen : index.graphLen < 2 ^ 64
  graphStatStamp : index.graphStatStamp < 2 ^ 64
  row : ∀ table, ∀ row ∈ (index.body.map table).toList, RowFits row
  size : index.toBytes.length < 2 ^ 64

/-- The header `to_bytes` writes. -/
def GraphIndex.header : Header where
  graphLen := index.graphLen
  graphBlake3 := index.graphBlake3
  graphStatStamp := index.graphStatStamp
  sampleFingerprint := index.sampleFingerprint
  hasTemporalHistory := index.body.hasTemporalHistory
  tables := spans preambleLen (tableBytes index)

variable {index}

/-- So only the tables make the file longer. -/
theorem length_toBytes : index.toBytes.length = preambleLen + (tableBytes index).flatten.length := by
  rw [toBytes_eq, List.length_append, List.length_append, length_headerFields,
    length_encodeDirectory, length_tableBytes]
  rfl

/-- The preamble parses to the header, whatever follows it. -/
theorem parseHeader_preamble (fits : index.Fits) (rest : Bytes) :
    parseHeader ((headerFields index).flatten ++ encodeDirectory preambleLen (tableBytes index) ++
      rest) = .ok index.header := by
  have size := fits.size
  rw [length_toBytes] at size
  have directory := readSpan_directory (headerFields index).flatten rest preambleLen
    (tableBytes index) size
  rw [length_tableBytes, length_headerFields] at directory
  have field : ∀ before field after, headerFields index = before ++ field :: after →
      slice ((headerFields index).flatten ++ encodeDirectory preambleLen (tableBytes index) ++ rest)
        before.flatten.length field.length = field := by
    intro before field after split
    rw [split, List.append_assoc]
    exact slice_flatten before field after _
  have long : preambleLen ≤ ((headerFields index).flatten ++
      encodeDirectory preambleLen (tableBytes index) ++ rest).length := by
    simp only [List.length_append, length_headerFields, length_encodeDirectory, length_tableBytes]
    exact Nat.le_add_right ..
  revert directory field long
  generalize (headerFields index).flatten ++ encodeDirectory preambleLen (tableBytes index) ++
    rest = bytes
  intro directory field long
  have magic : slice bytes 0 4 = indexMagic := field [] _ _ rfl
  have version : slice bytes 4 4 = leBytes 4 indexFormatVersion := field [indexMagic] _ _ rfl
  have graphLen : slice bytes 8 8 = leBytes 8 index.graphLen :=
    field [indexMagic, leBytes 4 indexFormatVersion] _ _ rfl
  have blake3 : slice bytes 16 32 = index.graphBlake3.1 := by
    simpa [index.graphBlake3.2, indexMagic] using
      field [indexMagic, leBytes 4 indexFormatVersion, leBytes 8 index.graphLen] _ _ rfl
  have stamp : slice bytes 48 8 = leBytes 8 index.graphStatStamp := by
    simpa [index.graphBlake3.2, indexMagic] using
      field [indexMagic, leBytes 4 indexFormatVersion, leBytes 8 index.graphLen,
        index.graphBlake3.1] _ _ rfl
  have sample : slice bytes 56 32 = index.sampleFingerprint.1 := by
    simpa [index.graphBlake3.2, index.sampleFingerprint.2, indexMagic] using
      field [indexMagic, leBytes 4 indexFormatVersion, leBytes 8 index.graphLen,
        index.graphBlake3.1, leBytes 8 index.graphStatStamp] _ _ rfl
  have history : slice bytes 88 1 = [if index.body.hasTemporalHistory then 1 else 0] := by
    simpa [index.graphBlake3.2, index.sampleFingerprint.2, indexMagic] using
      field [indexMagic, leBytes 4 indexFormatVersion, leBytes 8 index.graphLen,
        index.graphBlake3.1, leBytes 8 index.graphStatStamp, index.sampleFingerprint.1] _ _ rfl
  have separator : slice bytes headerLen 1 = [newline] := by
    simpa [index.graphBlake3.2, index.sampleFingerprint.2, indexMagic, headerLen] using
      field [indexMagic, leBytes 4 indexFormatVersion, leBytes 8 index.graphLen,
        index.graphBlake3.1, leBytes 8 index.graphStatStamp, index.sampleFingerprint.1,
        [if index.body.hasTemporalHistory then 1 else 0]] _ _ rfl
  have version : u32At bytes 4 = indexFormatVersion := by
    rw [u32At, version]
    rfl
  have preamble : preambleLen = 186 := rfl
  unfold parseHeader
  rw [if_neg (by omega), if_neg (by simp [magic]), if_neg (by simp [version]),
    dif_neg (by omega), if_neg (by simp [separator])]
  simp only [GraphIndex.header, Except.ok.injEq, Header.mk.injEq]
  refine ⟨?_, Subtype.ext blake3, ?_, Subtype.ext sample, ?_, directory⟩
  · rw [u64At, graphLen]
    exact ofLe_leBytes 8 _ fits.graphLen
  · rw [u64At, stamp]
    exact ofLe_leBytes 8 _ fits.graphStatStamp
  · rw [history]
    cases index.body.hasTemporalHistory <;> rfl

/-- The header reads back, with the directory and every check on it. -/
theorem parseHeader_toBytes (fits : index.Fits) : parseHeader index.toBytes = .ok index.header := by
  rw [toBytes_eq]
  exact parseHeader_preamble fits _

variable (index) in
/-- Each table stands in its slot, the earlier ones before it. -/
theorem tableBytes_split (table : Table) : ∃ before after,
    tableBytes index = before ++ encodeTable (index.body.map table) :: after ∧
      before.length = table.slot := by
  cases table
  · exact ⟨[], _, rfl, rfl⟩
  · exact ⟨[_], _, rfl, rfl⟩
  · exact ⟨[_, _], _, rfl, rfl⟩
  · exact ⟨[_, _, _], _, rfl, rfl⟩
  · exact ⟨[_, _, _, _], _, rfl, rfl⟩
  · exact ⟨[_, _, _, _, _], _, rfl, rfl⟩

variable (index) in
/-- The directory leads to the bytes of each table. -/
theorem table_place (table : Table) : ∃ start,
    index.header.tables.getD table.slot (0, 0) =
        (start, (encodeTable (index.body.map table)).length) ∧
      TableAt index.toBytes start (index.body.map table).toList := by
  obtain ⟨before, after, split, slot⟩ := tableBytes_split index table
  refine ⟨preambleLen + before.flatten.length, ?_, ?_⟩
  · rw [← slot, GraphIndex.header, split]
    exact spans_getD ..
  · refine ⟨(headerFields index).flatten ++ encodeDirectory preambleLen (tableBytes index) ++
      before.flatten, after.flatten, ?_, ?_⟩
    · rw [toBytes_eq]
      generalize encodeDirectory preambleLen (tableBytes index) = directory
      rw [split]
      simp [encodeTable]
    · simp only [List.length_append, length_headerFields, length_encodeDirectory,
        length_tableBytes]
      rfl

/-- In an index that fits, the rows of each table do. -/
theorem rowsFit_of_fits (fits : index.Fits) (table : Table) :
    RowsFit (index.body.map table).toList := by
  obtain ⟨start, _, front, back, file, _⟩ := table_place index table
  refine ⟨fits.row table, Nat.lt_of_le_of_lt ?_ fits.size⟩
  rw [file, List.length_append, List.length_append]
  omega

/-- The bytes of a table lie inside the file. -/
theorem getRange_of_tableAt {file : Bytes} {start : Nat} {rows : List (String × List Nat)}
    (place : TableAt file start rows) :
    getRange file start (start + (encodeRows rows).length) = some (encodeRows rows) := by
  obtain ⟨front, back, rfl, rfl⟩ := place
  rw [getRange_of_inside (by simp only [List.length_append]; omega), slice_exact rfl rfl]

/-- Each table reads back. -/
theorem parseTable_toBytes (fits : index.Fits) (table : Table) :
    parseTable index.toBytes index.header.tables table = .ok (index.body.map table) := by
  obtain ⟨start, span, place⟩ := table_place index table
  have rows := rowsFit_of_fits fits table
  have stop : start + (encodeTable (index.body.map table)).length < 2 ^ 64 := by
    obtain ⟨front, back, file, rfl⟩ := place
    have size := fits.size
    rw [file, List.length_append, List.length_append] at size
    exact Nat.lt_of_le_of_lt (Nat.le_add_right ..) size
  unfold parseTable
  rw [span]
  simp only [checkedU64_of_lt stop, Option.bind_some]
  rw [encodeTable, getRange_of_tableAt place]
  simp only [decodeTable_encodeRows rows, foldl_insertEntry_toList]

/-- So the whole index reads back. -/
theorem parse_toBytes (fits : index.Fits) : GraphIndex.parse index.toBytes = .ok index := by
  unfold GraphIndex.parse
  simp only [parseHeader_toBytes fits, parseTable_toBytes fits, bind, Except.bind]
  rfl

/-- Opening the file reads the header alone. -/
theorem openIndex_toBytes (fits : index.Fits) : openIndex index.toBytes = .ok index.header := by
  have preamble : index.toBytes.take preambleLen =
      (headerFields index).flatten ++ encodeDirectory preambleLen (tableBytes index) ++ [] := by
    rw [toBytes_eq, List.append_nil]
    apply List.take_left'
    simp only [List.length_append, length_headerFields, length_encodeDirectory, length_tableBytes]
    rfl
  unfold openIndex
  rw [preamble, parseHeader_preamble fits]
  refine if_pos (List.all_eq_true.mpr fun ⟨start, len⟩ member => ?_)
  have inside := spans_inside member
  rw [← length_toBytes] at inside
  have size := fits.size
  simp only [checkedU64_of_lt (Nat.lt_of_le_of_lt inside size), Option.any_some, inside,
    decide_true]

/-- A lookup in the file finds the offsets of the key, and none for a key that is not there. -/
theorem lookup_toBytes (fits : index.Fits) (table : Table) (key : String) :
    (fileTable index.toBytes index.header.tables table).lookup key =
      .ok ((index.body.map table)[key]?.getD []) := by
  obtain ⟨start, span, place⟩ := table_place index table
  unfold fileTable
  rw [span]
  exact lookup_rowsTable (rowsFit_of_fits fits table) place key

/-- An index survives its file: `parse` gives it back, and each table of the opened file
answers every key as the table in memory does. -/
theorem index_file_roundTrip (fits : index.Fits) :
    GraphIndex.parse index.toBytes = .ok index ∧
      ∃ header, openIndex index.toBytes = .ok header ∧
        ∀ table key, (fileTable index.toBytes header.tables table).lookup key =
          .ok ((index.body.map table)[key]?.getD []) :=
  ⟨parse_toBytes fits, index.header, openIndex_toBytes fits, lookup_toBytes fits⟩

/-- Names that are empty, prefixes of one another and not ASCII. -/
def sampleNames : PostingMap :=
  (((∅ : PostingMap).insert "" [0]).insert "λ" [7, 2 ^ 40]).insert "λx" []

def sampleNamed : GraphIndex where
  graphLen := 12
  graphBlake3 := ⟨List.replicate 32 7, rfl⟩
  graphStatStamp := 0
  sampleFingerprint := ⟨List.replicate 32 9, rfl⟩
  body := { byName := sampleNames, hasTemporalHistory := true }

/-- A named index fits the format, its hash and its commit included. -/
theorem sampleNamed_fits : sampleNamed.Fits where
  graphLen := by decide
  graphStatStamp := by decide
  row := by
    have rows : ∀ table ∈ Table.all, ∀ row ∈ (sampleNamed.body.map table).toList, RowFits row := by
      decide
    intro table
    exact rows table (by cases table <;> decide)
  size := by decide +kernel

/-- The round trip of this index. -/
theorem sampleNamed_file_roundTrip :
    GraphIndex.parse sampleNamed.toBytes = .ok sampleNamed ∧
      ∃ header, openIndex sampleNamed.toBytes = .ok header ∧
        ∀ table key, (fileTable sampleNamed.toBytes header.tables table).lookup key =
          .ok ((sampleNamed.body.map table)[key]?.getD []) :=
  index_file_roundTrip sampleNamed_fits

end File

end Egregore
