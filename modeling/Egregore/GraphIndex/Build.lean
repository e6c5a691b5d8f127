import Egregore.GraphIndex.Body

/-!
# What a build indexes

The located lines of a graph: the records an accepting build reads, each with its
line-start offset. The built tables hold exactly the offsets of these lines, a
read at such an offset gives the record back, and a cold scan reads the same
records in the same order.
-/

namespace Egregore

open Base

/-- A record with the byte offset its line starts at. -/
structure Line where
  offset : Nat
  record : GraphRecord
  deriving DecidableEq, Repr

/-- The record of a non-blank line that reads as one. -/
def visibleRecord (serde : SerdeJson) (rawLine : Bytes) : Option GraphRecord :=
  match fromUtf8 (lineContent rawLine) with
  | none => none
  | some text =>
      if isBlank text then none
      else
        match readRecordLine serde text with
        | .ok (.record record) => some record
        | _ => none

/-- The located lines among physical lines that start at byte `cursor`. -/
def locate (serde : SerdeJson) : Nat → List Bytes → List Line
  | _, [] => []
  | cursor, rawLine :: rest =>
      ((visibleRecord serde rawLine).toList.map fun record => ⟨cursor, record⟩) ++
        locate serde (cursor + rawLine.length) rest

/-- The located lines of a graph. -/
def locatedLines (serde : SerdeJson) (bytes : Bytes) : List Line :=
  locate serde 0 (splitInclusive (· = newline) bytes)

/-- `read_record_at`: the record whose line starts at `offset`. -/
def readRecordAt (serde : SerdeJson) (graphBytes : Bytes) (offset : Nat) : Option GraphRecord :=
  if graphBytes.length ≤ offset then none
  else
    let content := (graphBytes.drop offset).takeWhile (· ≠ newline)
    match fromUtf8 (stripSuffix carriageReturn content) with
    | none => none
    | some text =>
        match readRecordLine serde text with
        | .ok (.record record) => some record
        | _ => none

section Offsets

variable {serde : SerdeJson}

/-- Lines are located behind the cursor. -/
theorem le_offset_of_mem_locate {cursor : Nat} {pieces : List Bytes} {line : Line}
    (member : line ∈ locate serde cursor pieces) : cursor ≤ line.offset := by
  induction pieces generalizing cursor with
  | nil => simp [locate] at member
  | cons rawLine rest ih =>
      simp only [locate, List.mem_append, List.mem_map, Option.mem_toList] at member
      rcases member with ⟨record, -, rfl⟩ | member
      · exact le_rfl
      · exact le_trans (Nat.le_add_right _ _) (ih member)

/-- Offsets ascend, strictly. -/
theorem locate_ascending {cursor : Nat} {pieces : List Bytes}
    (nonempty : ∀ piece ∈ pieces, piece ≠ []) :
    (locate serde cursor pieces).Pairwise fun line later => line.offset < later.offset := by
  induction pieces generalizing cursor with
  | nil => simp [locate]
  | cons rawLine rest ih =>
      rw [locate, List.pairwise_append]
      refine ⟨?_, ih fun piece member => nonempty piece (List.mem_cons_of_mem _ member), ?_⟩
      · cases visibleRecord serde rawLine <;> simp
      · intro line here later after
        simp only [List.mem_map, Option.mem_toList] at here
        obtain ⟨record, -, rfl⟩ := here
        have positive : 0 < rawLine.length :=
          List.length_pos_iff.mpr (nonempty rawLine (by simp))
        have := le_offset_of_mem_locate after
        simp only
        omega

/-- There are no more lines than pieces. -/
theorem locate_length_le (cursor : Nat) (pieces : List Bytes) :
    (locate serde cursor pieces).length ≤ pieces.length := by
  induction pieces generalizing cursor with
  | nil => simp [locate]
  | cons rawLine rest ih =>
      simp only [locate, List.length_append, List.length_map, List.length_cons]
      have := ih (cursor + rawLine.length)
      cases visibleRecord serde rawLine <;> simp <;> omega

/-- The offsets of the lines ascend. -/
theorem locatedLines_ascending (bytes : Bytes) :
    (locatedLines serde bytes).Pairwise fun line later => line.offset < later.offset :=
  locate_ascending fun _ member => (isPiece_of_mem_splitInclusive member).nonempty

/-- There are no more pieces than bytes. -/
private theorem length_pieces_le (pieces : List Bytes) (nonempty : ∀ piece ∈ pieces, piece ≠ []) :
    pieces.length ≤ pieces.flatten.length := by
  induction pieces with
  | nil => simp
  | cons piece rest ih =>
      have positive : 0 < piece.length := List.length_pos_iff.mpr (nonempty piece (by simp))
      have := ih fun other member => nonempty other (List.mem_cons_of_mem _ member)
      simp only [List.length_cons, List.flatten_cons, List.length_append]
      omega

/-- There are no more lines than bytes. -/
theorem locatedLines_length_le (bytes : Bytes) :
    (locatedLines serde bytes).length ≤ bytes.length := by
  refine le_trans (locate_length_le 0 _) ?_
  have := length_pieces_le (splitInclusive (· = newline) bytes) fun _ member =>
    (isPiece_of_mem_splitInclusive member).nonempty
  rwa [flatten_splitInclusive] at this

end Offsets

section ReadBack

variable {serde : SerdeJson}

/-- Up to the first newline of a piece and what follows, the piece's own content. -/
private theorem takeWhile_piece {piece rest : Bytes}
    (isPiece : IsPiece (fun byte => decide (byte = newline)) piece)
    (ends : rest ≠ [] → piece.getLast? = some newline) :
    (piece ++ rest).takeWhile (· ≠ newline) = stripSuffix newline piece := by
  obtain ⟨front, last, rfl⟩ := List.eq_nil_or_concat piece |>.resolve_left isPiece.nonempty
  rw [List.concat_eq_append] at *
  have free : ∀ byte ∈ front, byte ≠ newline := fun byte member => by
    simpa using isPiece.interior byte (by simpa using member)
  have run : ∀ tail : Bytes,
      (front ++ tail).takeWhile (fun byte => decide (byte ≠ newline)) =
        front ++ tail.takeWhile (fun byte => decide (byte ≠ newline)) := fun tail =>
    List.takeWhile_append_of_pos fun byte member => by simpa using free byte member
  by_cases stops : last = newline
  · subst stops
    rw [stripSuffix_append_singleton, List.append_assoc, run]
    simp
  · have noRest : rest = [] := by
      by_contra more
      exact stops (by simpa using ends more)
    subst noRest
    rw [stripSuffix_of_ne stops, List.append_nil, run]
    simp [stops]

/-- Reading at the offset of a line reads its record again. -/
private theorem readRecordAt_of_mem_locate (before : Bytes) (pieces : List Bytes)
    (isPiece : ∀ piece ∈ pieces, IsPiece (fun byte => decide (byte = newline)) piece)
    (ends : ∀ earlier piece later, pieces = earlier ++ piece :: later → later ≠ [] →
      piece.getLast? = some newline)
    {line : Line} (member : line ∈ locate serde before.length pieces) :
    readRecordAt serde (before ++ pieces.flatten) line.offset = some line.record := by
  induction pieces generalizing before with
  | nil => simp [locate] at member
  | cons rawLine rest ih =>
      simp only [locate, List.mem_append, List.mem_map, Option.mem_toList] at member
      rcases member with ⟨record, visible, rfl⟩ | member
      · have piece := isPiece rawLine (by simp)
        have positive : 0 < rawLine.length := List.length_pos_iff.mpr piece.nonempty
        have content : ((before ++ (rawLine :: rest).flatten).drop before.length).takeWhile
            (· ≠ newline) = stripSuffix newline rawLine := by
          rw [List.drop_left, List.flatten_cons]
          refine takeWhile_piece piece fun more => ends [] rawLine rest rfl ?_
          rintro rfl
          exact more rfl
        have inside : ¬ (before ++ (rawLine :: rest).flatten).length ≤ before.length := by
          simp only [List.flatten_cons, List.length_append]
          omega
        simp only [readRecordAt, if_neg inside, content]
        revert visible
        unfold visibleRecord lineContent
        cases fromUtf8 (stripSuffix carriageReturn (stripSuffix newline rawLine)) with
        | none => simp
        | some text =>
            simp only
            split
            · simp
            · exact id
      · have shifted := ih (before ++ rawLine)
          (fun piece inside => isPiece piece (List.mem_cons_of_mem _ inside))
          (fun earlier piece later split more =>
            ends (rawLine :: earlier) piece later (by simp [split]) more)
          (by simpa using member)
        simpa using shifted

/-- A read at a located offset gives the located record. -/
theorem readRecordAt_located {bytes : Bytes} {line : Line}
    (member : line ∈ locatedLines serde bytes) :
    readRecordAt serde bytes line.offset = some line.record := by
  have := readRecordAt_of_mem_locate [] (splitInclusive (· = newline) bytes)
    (fun _ inside => isPiece_of_mem_splitInclusive inside)
    (fun earlier piece later split more => by
      obtain ⟨last, at_end, stops⟩ := getLast_of_splitInclusive earlier split more
      simpa [show last = newline by simpa using stops] using at_end)
    (by simpa [locatedLines] using member)
  simpa using this

end ReadBack

section Accepted

variable {serde : SerdeJson}

/-- One located line, as the loop indexes it. -/
def indexLine (body : GraphIndexBody) (line : Line) : GraphIndexBody :=
  indexRecord
    (if recordIsHistorySignal line.record then { body with hasTemporalHistory := true } else body)
    line.record line.offset

/-- An accepting build indexes the located lines, in order. -/
theorem buildLines_eq {cursor lineNo : Nat} {pieces : List Bytes} {body final : GraphIndexBody}
    (built : buildLines serde cursor lineNo pieces body = .ok final) :
    final = (locate serde cursor pieces).foldl indexLine body := by
  induction pieces generalizing cursor lineNo body with
  | nil => exact (Except.ok.inj built).symm
  | cons rawLine rest ih =>
      simp only [buildLines] at built
      simp only [locate, visibleRecord, List.foldl_append]
      cases decoded : fromUtf8 (lineContent rawLine) with
      | none => simp [decoded] at built
      | some text =>
          simp only [decoded] at built ⊢
          by_cases blank : isBlank text
          · simp only [blank, if_true] at built ⊢
            exact ih built
          · simp only [blank, Bool.false_eq_true, if_false] at built ⊢
            cases read : readRecordLine serde text with
            | error fault => simp [read] at built
            | ok outcome =>
                cases outcome with
                | unknownSchemaVersion unknown => simp [read] at built
                | record record =>
                    simp only [read] at built ⊢
                    exact ih built

/-- Bytes are valid when they are so without a final character. -/
private theorem exists_asBytes_of_stripSuffix (char : Char) {code : UInt8} {bytes : Bytes}
    (encoded : String.utf8EncodeChar char = [code])
    (valid : ∃ text, asBytes text = stripSuffix code bytes) : ∃ text, asBytes text = bytes := by
  obtain ⟨text, encodes⟩ := valid
  rcases eq_stripSuffix_or code bytes with same | stripped
  · exact ⟨text, encodes.trans same.symm⟩
  · refine ⟨text ++ String.ofList [char], ?_⟩
    rw [asBytes_append, asBytes_ofList, encodes, List.flatMap_singleton, encoded]
    exact stripped.symm

/-- The bytes of an accepted graph are valid UTF-8. -/
theorem exists_text_of_buildLines {cursor lineNo : Nat} {pieces : List Bytes}
    {body final : GraphIndexBody} (built : buildLines serde cursor lineNo pieces body = .ok final) :
    ∃ text, asBytes text = pieces.flatten := by
  induction pieces generalizing cursor lineNo body with
  | nil => exact ⟨"", by decide⟩
  | cons rawLine rest ih =>
      simp only [buildLines] at built
      cases decoded : fromUtf8 (lineContent rawLine) with
      | none => simp [decoded] at built
      | some text =>
          have rawValid : ∃ raw, asBytes raw = rawLine :=
            exists_asBytes_of_stripSuffix '\n' (by decide)
              (exists_asBytes_of_stripSuffix '\r' (by decide)
                ⟨text, fromUtf8_eq_some_iff.mp decoded⟩)
          have restValid : ∃ tail, asBytes tail = rest.flatten := by
            simp only [decoded] at built
            by_cases blank : isBlank text
            · simp only [blank, if_true] at built
              exact ih built
            · simp only [blank, Bool.false_eq_true, if_false] at built
              cases read : readRecordLine serde text with
              | error fault => simp [read] at built
              | ok outcome =>
                  cases outcome with
                  | unknownSchemaVersion unknown => simp [read] at built
                  | record record =>
                      simp only [read] at built
                      exact ih built
          obtain ⟨raw, rawBytes⟩ := rawValid
          obtain ⟨tail, tailBytes⟩ := restValid
          exact ⟨raw ++ tail, by rw [asBytes_append, rawBytes, tailBytes, List.flatten_cons]⟩

/-- The line a build reads from a piece of text. -/
private def builtLine (piece : List Char) : String :=
  String.ofList (stripSuffix '\r' (stripSuffix '\n' piece))

/-- The content of a line is the text that the build reads. -/
private theorem fromUtf8_lineContent (piece : List Char) :
    fromUtf8 (lineContent (piece.flatMap String.utf8EncodeChar)) = some (builtLine piece) := by
  rw [lineContent, stripSuffix_newline, stripSuffix_carriageReturn, fromUtf8_eq_some_iff,
    builtLine, asBytes_ofList]

/-- `str::lines` keeps a `\r` the build strips, at most. -/
private theorem coldLine_eq_or (piece : List Char) :
    String.ofList (stripLineEnd piece) = builtLine piece ∨
      String.ofList (stripLineEnd piece) = builtLine piece ++ "\r" := by
  unfold builtLine stripLineEnd
  by_cases ends : piece.getLast? = some '\n'
  · exact Or.inl (by simp [ends, stripSuffix])
  · have whole : stripSuffix '\n' piece = piece := by simp [stripSuffix, ends]
    rw [if_neg ends, whole]
    rcases eq_stripSuffix_or '\r' piece with same | stripped
    · exact Or.inl (by rw [← same])
    · refine Or.inr ?_
      conv_lhs => rw [stripped]
      rw [String.ofList_append]

/-- A line is blank for the scan when it is for the build. -/
private theorem isBlank_coldLine (piece : List Char) :
    isBlank (String.ofList (stripLineEnd piece)) = isBlank (builtLine piece) := by
  rcases coldLine_eq_or piece with same | longer
  · rw [same]
  · rw [longer]
    exact isBlank_append_whitespace (builtLine piece) '\r' (by decide)

/-- Both read the same record from a line. -/
private theorem readRecordLine_coldLine (piece : List Char) (record : GraphRecord) :
    readRecordLine serde (String.ofList (stripLineEnd piece)) = .ok (.record record) ↔
      readRecordLine serde (builtLine piece) = .ok (.record record) := by
  rcases coldLine_eq_or piece with same | longer
  · rw [same]
  · rw [longer, readRecordLine_carriageReturn]

/-- A cold scan of an accepted graph reads the located records. -/
theorem recordsFromLines_of_buildLines {cursor lineNo : Nat} {pieces : List (List Char)}
    {body final : GraphIndexBody}
    (built : buildLines serde cursor lineNo
      (pieces.map fun piece => piece.flatMap String.utf8EncodeChar) body = .ok final) :
    recordsFromLines serde lineNo (pieces.map fun piece => String.ofList (stripLineEnd piece)) =
      .ok ((locate serde cursor
        (pieces.map fun piece => piece.flatMap String.utf8EncodeChar)).map Line.record) := by
  induction pieces generalizing cursor lineNo body with
  | nil => rfl
  | cons piece rest ih =>
      simp only [List.map_cons, buildLines, fromUtf8_lineContent] at built
      simp only [List.map_cons, recordsFromLines, locate, visibleRecord, fromUtf8_lineContent,
        isBlank_coldLine]
      by_cases blank : isBlank (builtLine piece)
      · simp only [blank, if_true] at built ⊢
        exact ih built
      · simp only [blank, Bool.false_eq_true, if_false] at built ⊢
        cases read : readRecordLine serde (builtLine piece) with
        | error fault => simp [read] at built
        | ok outcome =>
            cases outcome with
            | unknownSchemaVersion unknown => simp [read] at built
            | record record =>
                rw [(readRecordLine_coldLine piece record).mpr read]
                simp only [read] at built ⊢
                rw [ih built]
                rfl

/-- `load_records_from_jsonl` on a file's bytes, where they are valid UTF-8. -/
def coldScan (serde : SerdeJson) (bytes : Bytes) : Option (Except JsonlError (List GraphRecord)) :=
  (fromUtf8 bytes).map (recordsFromJsonl serde)

/-- What an accepting build has indexed. -/
structure BuiltFrom (serde : SerdeJson) (index : GraphIndex) (bytes : Bytes) : Prop where
  body : index.body =
    ((locatedLines serde bytes).foldl indexLine {}).mapTables fun map =>
      map.map fun _ offsets => sortDedup offsets
  cold : coldScan serde bytes = some (.ok ((locatedLines serde bytes).map Line.record))

/-- An index is built from the lines of its graph. -/
theorem builtFrom_of_build {blake3 : Bytes → Digest} {bytes : Bytes} {index : GraphIndex}
    (built : buildFromBytes serde blake3 bytes = .ok index) : BuiltFrom serde index bytes := by
  unfold buildFromBytes at built
  cases loop : buildLines serde 0 1 (splitInclusive (· = newline) bytes) {} with
  | error fault => simp [loop, bind, Except.bind] at built
  | ok body =>
      simp only [loop, bind, Except.bind, pure, Except.pure, Except.ok.injEq] at built
      subst built
      refine ⟨?_, ?_⟩
      · rw [buildLines_eq loop]
        rfl
      · obtain ⟨text, encodes⟩ := exists_text_of_buildLines loop
        rw [flatten_splitInclusive] at encodes
        subst encodes
        rw [splitInclusive_asBytes] at loop
        rw [coldScan, fromUtf8_asBytes, Option.map_some, recordsFromJsonl, lines,
          recordsFromLines_of_buildLines loop, ← splitInclusive_asBytes]
        rfl

end Accepted

section Postings

/-- A posting goes to the end of the list of its key. -/
@[simp] theorem getD_pushPosting (map : PostingMap) (key other : String) (offset : Nat) :
    (pushPosting map key offset)[other]?.getD [] =
      map[other]?.getD [] ++ if key = other then [offset] else [] := by
  rw [pushPosting, Std.ExtTreeMap.getElem?_alter]
  by_cases same : key = other
  · subst same
    simp
  · simp [same]

/-- A record has each key of a table once. -/
theorem Table.nodup_keys (table : Table) (record : GraphRecord) : (table.keys record).Nodup := by
  cases table <;> cases record <;> simp only [Table.keys] <;>
    first
    | exact List.nodup_nil
    | exact List.nodup_singleton _
    | skip
  · next node => cases node.name <;> simp
  · next node => cases node.repoRelativePath <;> simp
  · next edge =>
      split
      · next different => simpa using Ne.symm different
      · simp

/-- Indexing a record files its offset under its keys. -/
theorem map_indexRecord (body : GraphIndexBody) (record : GraphRecord) (offset : Nat)
    (table : Table) :
    (indexRecord body record offset).map table =
      (table.keys record).foldl (fun map key => pushPosting map key offset) (body.map table) := by
  cases record with
  | node node =>
      cases table <;> cases named : node.name <;> cases located : node.repoRelativePath <;>
        simp [indexRecord, Table.keys, GraphIndexBody.map, named, located]
  | edge edge =>
      by_cases loop : edge.target = edge.source <;> cases table <;>
        simp [indexRecord, Table.keys, GraphIndexBody.map, loop]
  | tombstone tombstone =>
      cases table <;> simp [indexRecord, Table.keys, GraphIndexBody.map]

/-- So it is posted once under each. -/
private theorem getD_foldl_pushPosting (map : PostingMap) {keys : List String} (nodup : keys.Nodup)
    (key : String) (offset : Nat) :
    (keys.foldl (fun map key => pushPosting map key offset) map)[key]?.getD [] =
      map[key]?.getD [] ++ if key ∈ keys then [offset] else [] := by
  induction keys generalizing map with
  | nil => simp
  | cons head tail ih =>
      obtain ⟨absent, nodup⟩ := List.nodup_cons.mp nodup
      rw [List.foldl_cons, ih _ nodup, getD_pushPosting]
      by_cases same : head = key
      · subst same
        simp [absent]
      · simp [same, Ne.symm same]

/-- The postings of a key, in a table filled from located lines. -/
theorem getD_foldl_indexLine (lines : List Line) (body : GraphIndexBody) (table : Table)
    (key : String) :
    ((lines.foldl indexLine body).map table)[key]?.getD [] =
      (body.map table)[key]?.getD [] ++
        (lines.filter fun line => key ∈ table.keys line.record).map Line.offset := by
  induction lines generalizing body with
  | nil => simp
  | cons line rest ih =>
      have tables : ∀ condition : Bool,
          ((if condition then { body with hasTemporalHistory := true } else body :
            GraphIndexBody)).map table = body.map table := by
        intro condition
        cases condition <;> simp
      rw [List.foldl_cons, ih, indexLine, map_indexRecord, tables,
        getD_foldl_pushPosting _ (table.nodup_keys line.record)]
      by_cases filed : key ∈ table.keys line.record <;> simp [filed]

/-- Sorting and deduplicating a strictly ascending list changes nothing. -/
theorem sortDedup_of_ascending {offsets : List Nat} (ascending : offsets.Pairwise (· < ·)) :
    sortDedup offsets = offsets := by
  have weak : offsets.Pairwise (· ≤ ·) := ascending.imp fun less => Nat.le_of_lt less
  rw [sortDedup, List.Pairwise.insertionSort_eq weak]
  exact List.destutter_of_isChain _ _ (ascending.imp (fun less => Nat.ne_of_lt less)).isChain

/-- The history flag is raised by exactly the history signals. -/
theorem hasTemporalHistory_foldl_indexLine (lines : List Line) (body : GraphIndexBody) :
    (lines.foldl indexLine body).hasTemporalHistory =
      (body.hasTemporalHistory || lines.any fun line => recordIsHistorySignal line.record) := by
  have flag : ∀ (body : GraphIndexBody) (record : GraphRecord) (offset : Nat),
      (indexRecord body record offset).hasTemporalHistory = body.hasTemporalHistory := by
    intro body record offset
    cases record with
    | node node =>
        cases named : node.name <;> cases located : node.repoRelativePath <;>
          simp [indexRecord, named, located]
    | edge edge => by_cases loop : edge.target = edge.source <;> simp [indexRecord, loop]
    | tombstone tombstone => rfl
  induction lines generalizing body with
  | nil => simp
  | cons line rest ih =>
      rw [List.foldl_cons, ih, indexLine, flag, List.any_cons]
      cases recordIsHistorySignal line.record <;> simp

/-- The index knows whether a record carries history. -/
theorem hasTemporalHistory_of_built {serde : SerdeJson} {index : GraphIndex} {bytes : Bytes}
    (built : BuiltFrom serde index bytes) :
    index.body.hasTemporalHistory =
      (locatedLines serde bytes).any fun line => recordIsHistorySignal line.record := by
  rw [built.body, GraphIndexBody.hasTemporalHistory_mapTables, hasTemporalHistory_foldl_indexLine]
  rfl

end Postings

section Table

variable {serde : SerdeJson} {table : List (String × GraphRecord)}

/-- A row that reads back from its own line. -/
structure ReadableRow (serde : SerdeJson) (row : String × GraphRecord) : Prop where
  oneLine : newline ∉ asBytes row.1
  plain : carriageReturn ∉ asBytes row.1
  visible : isBlank row.1 = false
  reads : readRecordLine serde row.1 = .ok (.record row.2)

/-- The lines of a table that starts at byte `cursor`. -/
def tableLines : Nat → List (String × GraphRecord) → List Line
  | _, [] => []
  | cursor, row :: rest => ⟨cursor, row.2⟩ :: tableLines (cursor + (asBytes row.1).length + 1) rest

/-- The rows of a table are the lines of its graph. -/
theorem splitInclusive_tableGraph (rows : ∀ row ∈ table, ReadableRow serde row) :
    splitInclusive (· = newline) (tableGraph table) =
      table.map fun row => asBytes row.1 ++ [newline] := by
  induction table with
  | nil => rfl
  | cons row rest ih =>
      have free : ∀ byte ∈ asBytes row.1, decide (byte = newline) = false := fun byte member =>
        decide_eq_false (ne_of_mem_of_not_mem member (rows row (by simp)).oneLine)
      have later := ih fun other member => rows other (List.mem_cons_of_mem _ member)
      rw [tableGraph, List.flatMap_cons, List.append_assoc, List.singleton_append,
        splitInclusive_terminated free (by simp), List.map_cons]
      exact congrArg _ later

/-- A readable row is the content of its line. -/
theorem ReadableRow.fromUtf8_lineContent {row : String × GraphRecord} (back : ReadableRow serde row) :
    fromUtf8 (lineContent (asBytes row.1 ++ [newline])) = some row.1 := by
  rw [lineContent, stripSuffix_append_singleton, stripSuffix_of_notMem back.plain,
    fromUtf8_asBytes]

/-- A build of a table's rows accepts. -/
theorem buildLines_rows (rows : ∀ row ∈ table, ReadableRow serde row) (cursor lineNo : Nat)
    (body : GraphIndexBody) :
    ∃ final, buildLines serde cursor lineNo
      (table.map fun row => asBytes row.1 ++ [newline]) body = .ok final := by
  induction table generalizing cursor lineNo body with
  | nil => exact ⟨body, rfl⟩
  | cons row rest ih =>
      have back := rows row (by simp)
      simp only [List.map_cons, buildLines, back.fromUtf8_lineContent, back.visible,
        back.reads, Bool.false_eq_true, if_false]
      exact ih (fun other member => rows other (List.mem_cons_of_mem _ member)) _ _ _

/-- So the rows are located one behind the other. -/
theorem locate_rows (rows : ∀ row ∈ table, ReadableRow serde row) (cursor : Nat) :
    locate serde cursor (table.map fun row => asBytes row.1 ++ [newline]) =
      tableLines cursor table := by
  induction table generalizing cursor with
  | nil => rfl
  | cons row rest ih =>
      have back := rows row (by simp)
      have later := ih (fun other member => rows other (List.mem_cons_of_mem _ member))
        (cursor + (asBytes row.1 ++ [newline]).length)
      rw [List.map_cons, locate, visibleRecord, back.fromUtf8_lineContent, later]
      simp [back.visible, back.reads, tableLines, Nat.add_assoc]

/-- A text with an opening brace is not blank. -/
theorem isBlank_of_brace {text : String} (brace : 123 ∈ asBytes text) : isBlank text = false := by
  rw [asBytes_eq_flatMap] at brace
  obtain ⟨char, member, code⟩ := List.mem_flatMap.mp brace
  have same : char = '\x7b' :=
    Char.toNat_inj.mp ((mem_utf8EncodeChar_of_ascii (by decide)).mp code)
  rw [← Bool.not_eq_true, isBlank_iff]
  exact fun blank => absurd (blank char member) (by simp only [same]; decide)

/-- A parser that knows a table reads each of its rows. -/
theorem readableRow_tableSerde (distinct : (table.map Prod.fst).Nodup)
    {row : String × GraphRecord} (member : row ∈ table) (oneLine : newline ∉ asBytes row.1)
    (plain : carriageReturn ∉ asBytes row.1) (visible : isBlank row.1 = false)
    (known : isKnownRecordVersion (recordVersion row.2) = true) :
    ReadableRow (tableSerde table) row := by
  refine ⟨oneLine, plain, visible, readRecordLine_eq_record_iff.mpr ⟨?_, known⟩⟩
  have stripped : stripCarriageReturns (asBytes row.1) = asBytes row.1 := by
    have kept : (asBytes row.1).reverse.dropWhile (· = carriageReturn) = (asBytes row.1).reverse :=
      List.dropWhile_eq_self_iff.mpr fun nonempty => by
        simp only [decide_eq_true_eq]
        exact ne_of_mem_of_not_mem (by simp) plain
    rw [stripCarriageReturns, kept, List.reverse_reverse]
  have found : (table.find? fun entry => asBytes entry.1 = asBytes row.1) = some row := by
    induction table with
    | nil => cases member
    | cons entry rest ih =>
        simp only [List.map_cons, List.nodup_cons] at distinct
        rcases List.mem_cons.mp member with rfl | member
        · simp
        · have different : asBytes entry.1 ≠ asBytes row.1 := fun same =>
            distinct.1 (asBytes_injective same ▸ List.mem_map_of_mem member)
          simp [different, ih distinct.2 member]
  simp [tableSerde, stripped, found]

end Table

end Egregore
