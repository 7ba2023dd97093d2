/-
**`CMP3` files: what comes back.**

The encoder puts all rows of a text into one row group.  The decoders have limits on the values of a
column, on the bytes behind its runs and on the number of columns; the encoder asks about none of
them.

Main definitions:

* `CompactCore.Io.V3.encodeJsonl`, `CompactCore.Io.V3.decodeJsonl` — the two directions;
* `CompactCore.Io.V3.WithinLimits` — the limits of the decoders, as a condition on rows.

Main results:

* `CompactCore.Io.V3.readColumn_write` — **reading a column decodes the chunk that was written**;
* `CompactCore.Io.V3.encodeJsonl_readable` — **a file comes back and can be inspected exactly
  when its rows are within the limits**.
-/

import CompactCore.Io.V3.Inspect
import CompactCore.Reference

set_option relaxedAutoImplicit false
set_option autoImplicit false

namespace CompactCore.Io.V3

open Wire CompactError Format Format.V3 Codecs.V3

/-! ### Encoding -/

/-- The bytes of one column: the length of its metadata, its metadata and its payload. -/
def writeColumn (rows : List Map) (column : ColumnSchema) : Result (List UInt8) := do
  let chunk ← encodeColumn column rows
  let metadata ← encodeColumnMetadata chunk.metadata
  let metadataLen ← tryU32 metadata.length "cmp3 column metadata is too large"
  return le32 metadataLen ++ (metadata ++ chunk.payload)

/-- The fields in front of the columns. -/
def rowGroupHead (blockIndex firstRowIndex rowCount rawSize : UInt64) (columnCount : UInt32) :
    List UInt8 :=
  rowGroupMagic ++ (le64 blockIndex ++ (le64 firstRowIndex ++ (le64 rowCount ++ (le64 rawSize ++
    le32 columnCount))))

/-- Encode JSONL into a single-row-group `CMP3` file. -/
def encodeJsonl [Crc32Fast] [SerdeJson] (input : String) (schema : Schema) :
    Result (List UInt8) := do
  let columns ← validateImplementedSchema schema
  let rows ← parseRows input
  let rowCount ← tryU64 rows.length "cmp3 row count is too large"
  let rawSize ← tryU64 (asBytes input).length "cmp3 raw jsonl size is too large"
  let columnCount ← tryU32 columns.length "cmp3 schema has too many columns"
  let parts ← columns.mapM (writeColumn rows)
  let rowGroup := rowGroupHead 0 0 rowCount rawSize columnCount ++ parts.flatten
  return encodeEmptyHeader ++ (rowGroup ++ le32 (checksum rowGroup))

/-! ### Decoding -/

def readColumn (rowCount : ℕ) (column : ColumnSchema) : Reader CompactError DecodedColumn := do
  let metadataLen ← readUInt32 (readBytes "cmp3 column metadata length is truncated")
  let metadataBytes ← readBytes "cmp3 column metadata is truncated" metadataLen.toNat
  let (metadata, consumed) ← decodeColumnMetadata metadataBytes
  failIf (consumed ≠ metadataBytes.length)
    (invalidInput "cmp3 column metadata has trailing bytes")
  validateMetadataAgainstSchema metadata column rowCount
  let payloadLen ← tryUsize metadata.compressedSize "cmp3 column payload is too large"
  let payload ← readBytes "cmp3 column payload is truncated" payloadLen
  liftM (decodeColumn metadata payload)

def readColumns (rowCount : ℕ) : List ColumnSchema → Reader CompactError (List DecodedColumn)
  | [] => pure []
  | column :: columns => do
      let decoded ← readColumn rowCount column
      let decodedColumns ← readColumns rowCount columns
      return decoded :: decodedColumns

/-- The row count and the decoded columns of the only row group. -/
def readRowGroup (columns : List ColumnSchema) :
    Reader CompactError (ℕ × List DecodedColumn) := do
  let magic ← readBytes "cmp3 row group magic is truncated" 4
  failIf (magic ≠ rowGroupMagic) (invalidInput "invalid cmp3 row group magic")
  let blockIndex ← readUInt64 (readBytes "cmp3 block index is truncated")
  failIf (blockIndex ≠ 0) (invalidInput "cmp3 single row group must have block index zero")
  let firstRowIndex ← readUInt64 (readBytes "cmp3 first row index is truncated")
  failIf (firstRowIndex ≠ 0) (invalidInput "cmp3 single row group must start at row zero")
  let rowCount ← readUInt64 (readBytes "cmp3 row count is truncated")
  let rowCount ← tryUsize rowCount "cmp3 row count is too large"
  let _ ← readUInt64 (readBytes "cmp3 raw jsonl size is truncated")
  let columnCount ← readUInt32 (readBytes "cmp3 column count is truncated")
  failIf (columnCount.toNat ≠ columns.length)
    (invalidInput "cmp3 column count does not match schema")
  let decodedColumns ← readColumns rowCount columns
  return (rowCount, decodedColumns)

/-- The values of one row, under the names of their columns. -/
def decodedRow (columns : List ColumnSchema) (decodedColumns : List DecodedColumn) (rowIndex : ℕ) :
    Result (List (String × Value)) :=
  (columns.zip decodedColumns).mapM fun (column, values) => do
    let value ← values.valueAt rowIndex
    return (column.name, value)

def renderDecodedRows [SerdeJson] (columns : List ColumnSchema)
    (decodedColumns : List DecodedColumn) (rowCount : ℕ) : Result String :=
  (List.range rowCount).foldlM (fun out rowIndex => do
    let members ← decodedRow columns decodedColumns rowIndex
    return out ++ renderObject members ++ "\n") ""

/-- Decode a single-row-group `CMP3` file into canonical JSONL. -/
def decodeJsonl [Crc32Fast] [SerdeJson] (data : List UInt8) (schema : Schema) : Result String := do
  let columns ← validateImplementedSchema schema
  let header ← decodeHeader data
  failIf (header.payload ≠ []) (unsupported "cmp3 header payload")
  -- the header of a file ends inside the file
  let rowGroup := data.drop header.bodyOffset
  failIf (rowGroup.length < checksumLen) (invalidInput "cmp3 row group is truncated")
  let checksumOffset := rowGroup.length - checksumLen
  let body := rowGroup.take checksumOffset
  failIf (verify body (u32OfLe (rowGroup.drop checksumOffset)) = false)
    (invalidInput "cmp3 row group checksum mismatch")
  let ((rowCount, decodedColumns), cursor) ← readRowGroup columns body 0
  failIf (cursor ≠ body.length) (invalidInput "cmp3 row group has trailing bytes")
  renderDecodedRows columns decodedColumns rowCount

/-! ### Columns -/

/-- What the writer writes for a column: the chunk that the column is encoded to. -/
structure WritesChunk (rows : List Map) (column : ColumnSchema) (chunk : EncodedColumnChunk)
    (bytes : List UInt8) : Prop where
  encode : encodeColumn column rows = .ok chunk
  layout : ∃ metadata : List UInt8, ∃ metadataLen : UInt32,
    encodeColumnMetadata chunk.metadata = .ok metadata ∧ metadataLen.toNat = metadata.length ∧
      bytes = le32 metadataLen ++ (metadata ++ chunk.payload)

theorem writeColumn_ok {rows : List Map} {column : ColumnSchema} {bytes : List UInt8} :
    writeColumn rows column = .ok bytes ↔ ∃ chunk, WritesChunk rows column chunk bytes := by
  simp only [writeColumn, bind_ok, tryU32_ok, pure_ok]
  constructor
  · rintro ⟨chunk, hchunk, metadata, hmetadata, metadataLen, hlen, rfl⟩
    exact ⟨chunk, hchunk, metadata, metadataLen, hmetadata, hlen, rfl⟩
  · rintro ⟨chunk, hchunk, metadata, metadataLen, hmetadata, hlen, rfl⟩
    exact ⟨chunk, hchunk, metadata, hmetadata, metadataLen, hlen, rfl⟩

section

variable {rows : List Map} {column : ColumnSchema} {chunk : EncodedColumnChunk}
  {bytes data : List UInt8} {c c' : ℕ}

/-- The payload of a chunk has the length that its metadata says. -/
theorem compressedSize_eq (h : encodeColumn column rows = .ok chunk) :
    chunk.metadata.compressedSize.toNat = chunk.payload.length := by
  obtain ⟨codec, -, henc⟩ := encodeColumn_explicit h
  exact (encodeExplicit_describes henc).compressedSize_eq

theorem valueCount_eq (h : encodeColumn column rows = .ok chunk) :
    chunk.metadata.valueCount.toNat = rows.length := by
  obtain ⟨codec, -, henc⟩ := encodeColumn_explicit h
  exact (encodeExplicit_describes henc).valueCount_eq

/-- The metadata of a chunk is read back from the bytes of its column. -/
theorem decodeColumnMetadata_encode {metadata : ColumnChunkMetadata} {record : List UInt8}
    (h : encodeColumnMetadata metadata = .ok record) (hfit : Fits record) :
    decodeColumnMetadata record = .ok (metadata, record.length) :=
  (decodeColumnMetadata_ok hfit).2 ⟨record, h, List.prefix_refl _, rfl⟩

/-- **Reading a column decodes the chunk that was written.** -/
theorem readColumn_write (hfit : Fits data) (h : WritesChunk rows column chunk bytes)
    (hat : At data c bytes) {decoded : DecodedColumn} :
    readColumn rows.length column data c = .ok (decoded, c') ↔
      decodeColumn chunk.metadata chunk.payload = .ok decoded ∧ c' = c + bytes.length := by
  obtain ⟨henc, metadata, metadataLen, hmetadata, hlen, rfl⟩ := h
  have hsize := compressedSize_eq henc
  rw [at_append, at_append, length_le32] at hat
  obtain ⟨hat₁, hat₂, hat₃⟩ := hat
  have hle := hat₂.le
  have hrecord := decodeColumnMetadata_encode hmetadata (lt_of_le_of_lt (by omega) hfit)
  have hvalid := validateMetadataAgainstSchema_encodeColumn henc
  have hread₁ : readUInt32 (readBytes "cmp3 column metadata length is truncated") data c =
      .ok (metadataLen, c + 4) := (readUInt32_ok hfit).2 ⟨hat₁, rfl⟩
  have hread₂ : readBytes "cmp3 column metadata is truncated" metadataLen.toNat data (c + 4) =
      .ok (metadata, c + 4 + metadata.length) :=
    (readExact_ok hfit).2 ⟨hat₂, hlen.symm, by rw [hlen]⟩
  have hread₃ : readBytes "cmp3 column payload is truncated"
      chunk.metadata.compressedSize.toNat data (c + 4 + metadata.length) =
        .ok (chunk.payload, c + 4 + metadata.length + chunk.payload.length) :=
    (readExact_ok hfit).2 ⟨hat₃, hsize.symm, by rw [hsize]⟩
  simp only [readColumn, Reader.bind_ok, hread₁, Except.ok.injEq, Prod.mk.injEq, Reader.lift_ok,
    failIf_ok, tryUsize_eq, List.length_append, length_le32]
  constructor
  · rintro ⟨_, _, ⟨rfl, rfl⟩, _, _, hr₂, ⟨m, n⟩, _, ⟨hm, rfl⟩, _, _, ⟨-, rfl⟩, _, _, ⟨-, rfl⟩, _, _,
      ⟨rfl, rfl⟩, payload, _, hr₃, hdec, rfl⟩
    rw [hread₂] at hr₂
    cases hr₂
    rw [hrecord] at hm
    cases hm
    rw [hread₃] at hr₃
    cases hr₃
    exact ⟨hdec, by omega⟩
  · rintro ⟨hdec, rfl⟩
    exact ⟨_, _, ⟨rfl, rfl⟩, _, _, hread₂, (chunk.metadata, metadata.length), _, ⟨hrecord, rfl⟩, (),
      _, ⟨by simp, rfl⟩, (), _, ⟨hvalid, rfl⟩, _, _, ⟨rfl, rfl⟩, _, _, hread₃, hdec, by omega⟩

/-- A column whose statistics fit its metadata can be inspected. -/
theorem inspectColumn_write (hfit : Fits data) (h : WritesChunk rows column chunk bytes)
    (hat : At data c bytes) {rowCount : UInt64} (hrows : rowCount.toNat = rows.length)
    (hvalid : validateStatistics chunk.metadata = .ok ()) :
    ∃ inspect, inspectColumn rowCount data c = .ok (inspect, c + bytes.length) := by
  obtain ⟨henc, metadata, metadataLen, hmetadata, hlen, rfl⟩ := h
  have hsize := compressedSize_eq henc
  have hcount : chunk.metadata.valueCount = rowCount := by
    rw [← UInt64.toNat_inj, valueCount_eq henc, hrows]
  obtain ⟨statistics, hstatistics⟩ : ∃ statistics,
      Statistics.decode chunk.metadata.statisticsMetadata = .ok statistics := by
    simp only [validateStatistics, bind_ok] at hvalid
    obtain ⟨statistics, hstatistics, -⟩ := hvalid
    exact ⟨statistics, hstatistics⟩
  rw [at_append, at_append, length_le32] at hat
  obtain ⟨hat₁, hat₂, hat₃⟩ := hat
  have hle := hat₂.le
  have hrecord := decodeColumnMetadata_encode hmetadata (lt_of_le_of_lt (by omega) hfit)
  refine ⟨⟨chunk.metadata, statistics⟩, ?_⟩
  simp only [inspectColumn, readBytes, Reader.bind_ok, readUInt32_ok hfit, readExact_ok hfit,
    Reader.lift_ok, failIf_ok, not_not, tryUsize_eq, Except.ok.injEq, Reader.pure_ok]
  refine ⟨metadataLen, _, ⟨hat₁, rfl⟩, metadata, _, ⟨hat₂, hlen.symm, rfl⟩,
    (chunk.metadata, metadata.length), _, ⟨hrecord, rfl⟩, (), _, ⟨rfl, rfl⟩, (), _, ⟨hcount, rfl⟩,
    statistics, _, ⟨hstatistics, rfl⟩, (), _, ⟨hvalid, rfl⟩, _, _, ⟨rfl, rfl⟩, chunk.payload, _,
    ⟨?_, hsize.symm, rfl⟩, rfl, ?_⟩
  · rwa [hlen]
  · simp only [List.length_append, length_le32]
    omega

end

/-- A column, encoded for some rows and decoded again. -/
def Decoded (rows : List Map) (column : ColumnSchema) (decoded : DecodedColumn) : Prop :=
  ∃ chunk, encodeColumn column rows = .ok chunk ∧
    decodeColumn chunk.metadata chunk.payload = .ok decoded

section

variable {rows : List Map} {columns : List ColumnSchema} {parts : List (List UInt8)}
  {data : List UInt8} {c : ℕ}

/-- The columns of a row group are read exactly when their chunks decode. -/
theorem readColumns_write (hfit : Fits data)
    (hparts : List.Forall₂ (fun column bytes => writeColumn rows column = .ok bytes) columns parts)
    (hat : At data c parts.flatten) {c' : ℕ} {decodedColumns : List DecodedColumn} :
    readColumns rows.length columns data c = .ok (decodedColumns, c') ↔
      List.Forall₂ (Decoded rows) columns decodedColumns ∧ c' = c + parts.flatten.length := by
  induction hparts generalizing c decodedColumns with
  | nil =>
      rw [readColumns, Reader.pure_ok, List.forall₂_nil_left_iff, List.flatten_nil, List.length_nil,
        Nat.add_zero, eq_comm, @eq_comm _ c]
  | @cons column bytes columns parts hbytes _ ih =>
      obtain ⟨chunk, hchunk⟩ := writeColumn_ok.1 hbytes
      rw [List.flatten_cons, at_append] at hat
      simp only [readColumns, Reader.bind_ok, readColumn_write hfit hchunk hat.1, Reader.pure_ok,
        List.forall₂_cons_left_iff, List.flatten_cons, List.length_append]
      constructor
      · rintro ⟨decoded, _, ⟨hdec, rfl⟩, rest, _, hread, rfl, rfl⟩
        obtain ⟨hrest, rfl⟩ := (ih hat.2).1 hread
        exact ⟨⟨decoded, rest, ⟨chunk, hchunk.encode, hdec⟩, hrest, rfl⟩, by omega⟩
      · rintro ⟨⟨decoded, rest, ⟨chunk', hencode, hdec⟩, hrest, rfl⟩, rfl⟩
        obtain rfl : chunk = chunk' := by
          have heq := hchunk.encode.symm.trans hencode
          cases heq
          rfl
        exact ⟨decoded, _, ⟨hdec, rfl⟩, rest, _, (ih hat.2).2 ⟨hrest, by omega⟩, rfl, rfl⟩

/-- Columns that decode can be inspected. -/
theorem repeatRead_inspect (hfit : Fits data)
    (hparts : List.Forall₂ (fun column bytes => writeColumn rows column = .ok bytes) columns parts)
    (hat : At data c parts.flatten) {rowCount : UInt64} (hrows : rowCount.toNat = rows.length)
    (hvalid : ∀ column ∈ columns, ∀ chunk, encodeColumn column rows = .ok chunk →
      validateStatistics chunk.metadata = .ok ()) :
    ∃ inspects, Reader.repeatRead (inspectColumn rowCount) columns.length data c =
      .ok (inspects, c + parts.flatten.length) := by
  induction hparts generalizing c with
  | nil => exact ⟨[], rfl⟩
  | @cons column bytes columns parts hbytes _ ih =>
      obtain ⟨chunk, hchunk⟩ := writeColumn_ok.1 hbytes
      rw [List.flatten_cons, at_append] at hat
      obtain ⟨inspect, hinspect⟩ := inspectColumn_write hfit hchunk hat.1 hrows
        (hvalid column List.mem_cons_self chunk hchunk.encode)
      obtain ⟨inspects, hinspects⟩ := ih hat.2 fun c hc => hvalid c (List.mem_cons_of_mem _ hc)
      refine ⟨inspect :: inspects, ?_⟩
      simp only [List.length_cons, Reader.repeatRead, Reader.bind_ok, Reader.pure_ok]
      refine ⟨inspect, _, hinspect, inspects, _, hinspects, rfl, ?_⟩
      rw [List.flatten_cons, List.length_append, Nat.add_assoc]

end

/-! ### Rendering -/

theorem decodedRow_ok {rows : List Map} {columns : List ColumnSchema}
    {decodedColumns : List DecodedColumn}
    (h : List.Forall₂ (fun column (decoded : DecodedColumn) => decoded.Holds column rows) columns
      decodedColumns) {i : ℕ} (hi : i < rows.length) :
    decodedRow columns decodedColumns i =
      .ok (columns.map fun column => (column.name, valueOf column rows[i])) := by
  rw [decodedRow]
  induction h with
  | nil => rfl
  | @cons column decoded columns decodedColumns hcol _ ih =>
      have hvalue : decoded.valueAt i = .ok (valueOf column rows[i]) := by
        rw [DecodedColumn.valueAt_ok, hcol, List.getElem?_map, List.getElem?_eq_getElem hi]
        rfl
      simp only [List.zip_cons_cons, List.mapM_cons, bind_ok, pure_ok, List.map_cons]
      exact ⟨_, ⟨_, hvalue, rfl⟩, _, ih, rfl⟩

/-- **Columns that hold rows render them.** -/
theorem renderDecodedRows_ok [SerdeJson] {rows : List Map} {columns : List ColumnSchema}
    {decodedColumns : List DecodedColumn}
    (h : List.Forall₂ (fun column (decoded : DecodedColumn) => decoded.Holds column rows) columns
      decodedColumns) :
    renderDecodedRows columns decodedColumns rows.length = .ok (renderRows columns rows) := by
  rw [renderDecodedRows, foldlM_render (fun _ => true)
    (fun i => renderRow columns (rows.getD i []))]
  · rw [List.filter_true, renderRows]
    have hmap : (List.range rows.length).map (fun i => renderRow columns (rows.getD i []) ++ "\n") =
        rows.map fun row => renderRow columns row ++ "\n" := by
      refine List.ext_getElem (by simp) fun i hi hi' => ?_
      rw [List.length_map] at hi'
      rw [List.getElem_map, List.getElem_map, List.getElem_range, List.getD_eq_getElem _ _ hi']
    rw [hmap, String.empty_append]
  · intro out i hi
    have hi := List.mem_range.1 hi
    rw [decodedRow_ok h hi, List.getD_eq_getElem _ _ hi]
    rfl

/-! ### Files -/

/-- A file: the header, a row group and its checksum. -/
def fileOf [Crc32Fast] (rowGroup : List UInt8) : List UInt8 :=
  encodeEmptyHeader ++ (rowGroup ++ le32 (checksum rowGroup))

section

variable [Crc32Fast] {rowGroup : List UInt8}

theorem decodeHeader_fileOf : decodeHeader (fileOf rowGroup) = .ok ⟨0, [], fileHeaderLen⟩ :=
  ((readHeader_empty rfl).2 ⟨(at_append.1 (at_self (fileOf rowGroup))).1, rfl⟩).1

theorem drop_fileOf :
    (fileOf rowGroup).drop fileHeaderLen = rowGroup ++ le32 (checksum rowGroup) := by
  rw [fileOf]
  exact List.drop_left' rfl

theorem length_body : (rowGroup ++ le32 (checksum rowGroup)).length - checksumLen =
    rowGroup.length := by
  rw [List.length_append, length_le32]
  exact Nat.add_sub_cancel ..

theorem take_body : (rowGroup ++ le32 (checksum rowGroup)).take
    ((rowGroup ++ le32 (checksum rowGroup)).length - checksumLen) = rowGroup := by
  rw [length_body, List.take_left]

theorem verify_body : verify rowGroup (u32OfLe ((rowGroup ++ le32 (checksum rowGroup)).drop
    ((rowGroup ++ le32 (checksum rowGroup)).length - checksumLen))) = true := by
  rw [length_body, List.drop_left, u32OfLe_le32, verify_eq_true]

/-- What the decoder does with a file whose checksum holds. -/
theorem decodeJsonl_fileOf [SerdeJson] {schema : Schema} {columns : List ColumnSchema}
    (hcols : validateImplementedSchema schema = .ok columns) {text : String} :
    decodeJsonl (fileOf rowGroup) schema = .ok text ↔
      ∃ rowCount decodedColumns, readRowGroup columns rowGroup 0 =
          .ok ((rowCount, decodedColumns), rowGroup.length) ∧
        renderDecodedRows columns decodedColumns rowCount = .ok text := by
  simp only [decodeJsonl, hcols, decodeHeader_fileOf, bind_ok, Except.ok.injEq, exists_eq_left',
    drop_fileOf, take_body, verify_body, failIf_ok, not_not, Prod.exists]
  constructor
  · rintro ⟨_, -, _, -, _, -, rowCount, decodedColumns, cursor, hread, _, rfl, hrender⟩
    exact ⟨rowCount, decodedColumns, hread, hrender⟩
  · rintro ⟨rowCount, decodedColumns, hread, hrender⟩
    refine ⟨(), trivial, (), ?_, (), ?_, rowCount, decodedColumns, _, hread, (), rfl, hrender⟩
    · rw [List.length_append, length_le32]
      exact Nat.not_lt.2 (Nat.le_add_left ..)
    · simp

/-- What inspecting does with a file whose checksum holds. -/
theorem inspectJsonl_fileOf {inspect : Inspect} :
    inspectJsonl (fileOf rowGroup) = .ok inspect ↔
      ∃ rowCount rawSize columns, inspectRowGroup rowGroup 0 =
          .ok ((rowCount, rawSize, columns), rowGroup.length) ∧
        inspect = ⟨rowCount, rawSize, (fileOf rowGroup).length, columns⟩ := by
  simp only [inspectJsonl, decodeHeader_fileOf, bind_ok, Except.ok.injEq, exists_eq_left',
    drop_fileOf, take_body, verify_body, failIf_ok, not_not, Prod.exists, pure_ok]
  constructor
  · rintro ⟨_, -, _, -, rowCount, rawSize, columns, cursor, hread, _, rfl, rfl⟩
    exact ⟨rowCount, rawSize, columns, hread, rfl⟩
  · rintro ⟨rowCount, rawSize, columns, hread, rfl⟩
    refine ⟨(), ?_, (), ?_, rowCount, rawSize, columns, _, hread, (), rfl, rfl⟩
    · rw [List.length_append, length_le32]
      exact Nat.not_lt.2 (Nat.le_add_left ..)
    · simp

end

/-! ### The head of the row group -/

section

variable {rowCount rawSize : UInt64} {columnCount : UInt32} {rest : List UInt8} {c' : ℕ}

theorem length_rowGroupHead (blockIndex firstRowIndex rowCount rawSize : UInt64)
    (columnCount : UInt32) :
    (rowGroupHead blockIndex firstRowIndex rowCount rawSize columnCount).length = 40 := by
  simp only [rowGroupHead, rowGroupMagic, List.length_append, length_le64, length_le32,
    List.length_cons, List.length_nil]

/-- The fields of the head, each at its offset. -/
theorem at_rowGroupHead :
    let body := rowGroupHead 0 0 rowCount rawSize columnCount ++ rest
    At body 0 rowGroupMagic ∧ At body 4 (le64 0) ∧ At body 12 (le64 0) ∧
      At body 20 (le64 rowCount) ∧
      At body 28 (le64 rawSize) ∧ At body 36 (le32 columnCount) ∧ At body 40 rest := by
  intro body
  have hat := at_self body
  rw [at_append, length_rowGroupHead, rowGroupHead, at_append, at_append, at_append, at_append,
    at_append, length_le64] at hat
  obtain ⟨⟨h₀, h₄, h₁₂, h₂₀, h₂₈, h₃₆⟩, h₄₀⟩ := hat
  exact ⟨h₀, h₄, h₁₂, h₂₀, h₂₈, h₃₆, h₄₀⟩

/-- What a reader finds in the head, field by field. -/
theorem read_rowGroupHead (hfit : Fits (rowGroupHead 0 0 rowCount rawSize columnCount ++ rest)) :
    let body := rowGroupHead 0 0 rowCount rawSize columnCount ++ rest
    readBytes "cmp3 row group magic is truncated" 4 body 0 = .ok (rowGroupMagic, 4) ∧
      readUInt64 (readBytes "cmp3 block index is truncated") body 4 = .ok (0, 12) ∧
      readUInt64 (readBytes "cmp3 first row index is truncated") body 12 = .ok (0, 20) ∧
      readUInt64 (readBytes "cmp3 row count is truncated") body 20 = .ok (rowCount, 28) ∧
      readUInt64 (readBytes "cmp3 raw jsonl size is truncated") body 28 = .ok (rawSize, 36) ∧
      readUInt32 (readBytes "cmp3 column count is truncated") body 36 = .ok (columnCount, 40) := by
  intro body
  obtain ⟨h₀, h₄, h₁₂, h₂₀, h₂₈, h₃₆, -⟩ := @at_rowGroupHead rowCount rawSize columnCount rest
  exact ⟨(readExact_ok hfit).2 ⟨h₀, rfl, rfl⟩, (readUInt64_ok hfit).2 ⟨h₄, rfl⟩,
    (readUInt64_ok hfit).2 ⟨h₁₂, rfl⟩, (readUInt64_ok hfit).2 ⟨h₂₀, rfl⟩,
    (readUInt64_ok hfit).2 ⟨h₂₈, rfl⟩, (readUInt32_ok hfit).2 ⟨h₃₆, rfl⟩⟩

theorem readRowGroup_head
    {columns : List ColumnSchema} {n : ℕ} {decodedColumns : List DecodedColumn}
    (hfit : Fits (rowGroupHead 0 0 rowCount rawSize columnCount ++ rest))
    (hcount : columnCount.toNat = columns.length) :
    readRowGroup columns (rowGroupHead 0 0 rowCount rawSize columnCount ++ rest) 0 =
        .ok ((n, decodedColumns), c') ↔
      n = rowCount.toNat ∧ readColumns rowCount.toNat columns
        (rowGroupHead 0 0 rowCount rawSize columnCount ++ rest) 40 = .ok (decodedColumns, c') := by
  obtain ⟨hmagic, hindex, hfirst, hrows, hraw, hcols⟩ := read_rowGroupHead hfit
  rw [readRowGroup, Reader.bind_of_ok hmagic, Reader.lift_of_ok (failIf_of_not (by simp)),
    Reader.bind_of_ok hindex, Reader.lift_of_ok (failIf_of_not (by simp)), Reader.bind_of_ok hfirst,
    Reader.lift_of_ok (failIf_of_not (by simp)), Reader.bind_of_ok hrows,
    Reader.lift_of_ok (tryUsize_eq ..), Reader.bind_of_ok hraw, Reader.bind_of_ok hcols,
    Reader.lift_of_ok (failIf_of_not (by simpa using hcount))]
  simp only [Reader.bind_ok, Reader.pure_ok, Prod.mk.injEq]
  constructor
  · rintro ⟨found, _, hread, ⟨rfl, rfl⟩, rfl⟩
    exact ⟨rfl, hread⟩
  · rintro ⟨rfl, hread⟩
    exact ⟨_, _, hread, ⟨rfl, rfl⟩, rfl⟩

theorem inspectRowGroup_head {rows size : UInt64} {inspects : List ColumnInspect}
    (hfit : Fits (rowGroupHead 0 0 rowCount rawSize columnCount ++ rest)) :
    inspectRowGroup (rowGroupHead 0 0 rowCount rawSize columnCount ++ rest) 0 =
        .ok ((rows, size, inspects), c') ↔
      (rows = rowCount ∧ size = rawSize) ∧ columnCount.toNat ≤ maxCollectionEntries ∧
        columnCount.toNat ≤ rest.length / 4 ∧
        Reader.repeatRead (inspectColumn rowCount) columnCount.toNat
          (rowGroupHead 0 0 rowCount rawSize columnCount ++ rest) 40 = .ok (inspects, c') := by
  obtain ⟨hmagic, hindex, hfirst, hrows, hraw, hcols⟩ := read_rowGroupHead hfit
  have hmagic' : readBytes "cmp3 row group magic is truncated" rowGroupMagic.length _ 0 = _ :=
    hmagic
  have hremaining : (Reader.remaining : Reader CompactError ℕ)
      (rowGroupHead 0 0 rowCount rawSize columnCount ++ rest) 40 = .ok (rest.length, 40) := by
    rw [Reader.remaining_ok, List.length_append, length_rowGroupHead]
    exact ⟨Nat.add_sub_cancel_left .., rfl⟩
  rw [inspectRowGroup, Reader.bind_of_ok hmagic', Reader.lift_of_ok (failIf_of_not (by simp)),
    Reader.bind_of_ok hindex, Reader.bind_of_ok hfirst, Reader.bind_of_ok hrows,
    Reader.bind_of_ok hraw, Reader.bind_of_ok hcols, Reader.bind_of_ok hremaining]
  simp only [Reader.bind_ok, Reader.lift_ok, failIf_ok, not_or, not_lt, Reader.pure_ok,
    Prod.mk.injEq]
  constructor
  · rintro ⟨_, _, ⟨⟨hmax, hbound⟩, rfl⟩, found, _, hread, ⟨rfl, rfl, rfl⟩, rfl⟩
    exact ⟨⟨rfl, rfl⟩, hmax, hbound, hread⟩
  · rintro ⟨⟨rfl, rfl⟩, hmax, hbound, hread⟩
    exact ⟨(), _, ⟨⟨hmax, hbound⟩, rfl⟩, _, _, hread, ⟨rfl, rfl, rfl⟩, rfl⟩

end

/-! ### What comes back -/

/-- The limits of the decoders, as a condition on the columns of a schema and some rows. -/
structure WithinLimits (columns : List ColumnSchema) (rows : List Map) : Prop where
  rows_le : rows.length ≤ maxDecodedValues
  columns_le : columns.length ≤ maxCollectionEntries
  runs_le : ∀ column ∈ columns, ∀ chunk, encodeColumn column rows = .ok chunk →
    chunk.metadata.codec = .rle →
      ((columnStrings column rows).flatMap Strings.lenPrefixed).length ≤ maxDecodedBytes

/-- What an encoded file is. -/
theorem encodeJsonl_ok [Crc32Fast] [SerdeJson] {input : String} {schema : Schema}
    {file : List UInt8} (h : encodeJsonl input schema = .ok file) :
    ∃ rows parts, ∃ rowCount rawSize : UInt64, ∃ columnCount : UInt32,
      validateImplementedSchema schema = .ok schema.columns ∧ parseRows input = .ok rows ∧
      rowCount.toNat = rows.length ∧ columnCount.toNat = schema.columns.length ∧
      List.Forall₂ (fun column bytes => writeColumn rows column = .ok bytes) schema.columns parts ∧
      file = fileOf (rowGroupHead 0 0 rowCount rawSize columnCount ++ parts.flatten) := by
  simp only [encodeJsonl, bind_ok, tryU64_ok, tryU32_ok, mapM_ok, pure_ok] at h
  obtain ⟨columns, hcols, rows, hrows, rowCount, hcount, rawSize, -, columnCount, hcolumns, parts,
    hparts, rfl⟩ := h
  obtain ⟨rfl, -⟩ := validateImplementedSchema_ok hcols
  exact ⟨rows, parts, rowCount, rawSize, columnCount, hcols, hrows, hcount, hcolumns, hparts, rfl⟩

/-- Columns within the limits decode to the values of their rows. -/
theorem exists_decoded {columns : List ColumnSchema} {rows : List Map} {parts : List (List UInt8)}
    (hlimits : WithinLimits columns rows) (hfit : Fits parts.flatten)
    (hparts : List.Forall₂ (fun column bytes => writeColumn rows column = .ok bytes) columns
      parts) :
    ∃ decodedColumns, List.Forall₂ (Decoded rows) columns decodedColumns ∧
      List.Forall₂ (fun column (decoded : DecodedColumn) => decoded.Holds column rows) columns
        decodedColumns := by
  obtain ⟨hrows, -, hruns⟩ := hlimits
  induction hparts with
  | nil => exact ⟨[], List.Forall₂.nil, List.Forall₂.nil⟩
  | @cons column bytes columns parts hbytes _ ih =>
      obtain ⟨chunk, henc, metadata, metadataLen, -, -, rfl⟩ := writeColumn_ok.1 hbytes
      have hlen : parts.flatten.length < wordSize ∧ chunk.payload.length < wordSize := by
        have hlt : _ < wordSize := hfit
        simp only [List.flatten_cons, List.length_append] at hlt
        omega
      obtain ⟨decoded, hdec, hholds⟩ := decodeColumn_encodeColumn henc hrows hlen.2
        (hruns column List.mem_cons_self chunk henc)
      obtain ⟨rest, hrest, hholdsRest⟩ := ih hlen.1 fun c hc => hruns c (List.mem_cons_of_mem _ hc)
      exact ⟨decoded :: rest, List.Forall₂.cons ⟨chunk, henc, hdec⟩ hrest,
        List.Forall₂.cons hholds hholdsRest⟩

/-- Columns that decode are within the limits. -/
theorem Decoded.limit {columns : List ColumnSchema} {rows : List Map}
    {decodedColumns : List DecodedColumn}
    (h : List.Forall₂ (Decoded rows) columns decodedColumns) {column : ColumnSchema}
    (hcolumn : column ∈ columns) {chunk : EncodedColumnChunk}
    (hchunk : encodeColumn column rows = .ok chunk) :
    rows.length ≤ maxDecodedValues ∧ (chunk.metadata.codec = .rle →
      ((columnStrings column rows).flatMap Strings.lenPrefixed).length ≤ maxDecodedBytes) := by
  obtain ⟨i, hi, rfl⟩ := List.getElem_of_mem hcolumn
  obtain ⟨chunk', henc, hdec⟩ := (List.forall₂_iff_get.1 h).2 i hi (h.length_eq ▸ hi)
  rw [List.get_eq_getElem, hchunk] at henc
  cases henc
  exact decodeColumn_encodeColumn_limit hchunk hdec

theorem Decoded.rows_le {columns : List ColumnSchema} {rows : List Map}
    {decodedColumns : List DecodedColumn} (hne : columns ≠ [])
    (h : List.Forall₂ (Decoded rows) columns decodedColumns) : rows.length ≤ maxDecodedValues := by
  obtain ⟨column, hcolumn⟩ := List.exists_mem_of_ne_nil _ hne
  obtain ⟨i, hi, rfl⟩ := List.getElem_of_mem hcolumn
  obtain ⟨chunk, henc, -⟩ := (List.forall₂_iff_get.1 h).2 i hi (h.length_eq ▸ hi)
  exact (Decoded.limit h hcolumn henc).1

/-- Columns that decode have statistics that the decoder checked before their values. -/
theorem Decoded.validateStatistics_ok {columns : List ColumnSchema} {rows : List Map}
    {decodedColumns : List DecodedColumn}
    (h : List.Forall₂ (Decoded rows) columns decodedColumns) {column : ColumnSchema}
    (hcolumn : column ∈ columns) {chunk : EncodedColumnChunk}
    (hchunk : encodeColumn column rows = .ok chunk) :
    validateStatistics chunk.metadata = .ok () := by
  obtain ⟨i, hi, rfl⟩ := List.getElem_of_mem hcolumn
  obtain ⟨chunk', henc, hdec⟩ := (List.forall₂_iff_get.1 h).2 i hi (h.length_eq ▸ hi)
  rw [List.get_eq_getElem, hchunk] at henc
  cases henc
  simp only [decodeColumn, bind_ok] at hdec
  obtain ⟨_, hstatistics, -⟩ := hdec
  exact hstatistics

/-- The parts of an encoded file are no longer than the file. -/
theorem fits_parts [Crc32Fast] {rowCount rawSize : UInt64} {columnCount : UInt32}
    {parts : List (List UInt8)}
    (hfit : Fits (fileOf (rowGroupHead 0 0 rowCount rawSize columnCount ++ parts.flatten))) :
    Fits (rowGroupHead 0 0 rowCount rawSize columnCount ++ parts.flatten) ∧ Fits parts.flatten := by
  have hlt : _ < wordSize := hfit
  rw [fileOf, List.length_append, List.length_append] at hlt
  have hbody : Fits (rowGroupHead 0 0 rowCount rawSize columnCount ++ parts.flatten) := by
    show _ < wordSize
    omega
  refine ⟨hbody, lt_of_le_of_lt ?_ hbody⟩
  rw [List.length_append]
  exact Nat.le_add_left ..

/-- What an encoded file decodes to. -/
theorem decodeJsonl_written [Crc32Fast] [SerdeJson] {schema : Schema} {rows : List Map}
    {parts : List (List UInt8)} {rowCount rawSize : UInt64} {columnCount : UInt32} {text : String}
    (hcols : validateImplementedSchema schema = .ok schema.columns)
    (hcount : rowCount.toNat = rows.length) (hcolumns : columnCount.toNat = schema.columns.length)
    (hparts : List.Forall₂ (fun column bytes => writeColumn rows column = .ok bytes) schema.columns
      parts)
    (hfit : Fits (fileOf (rowGroupHead 0 0 rowCount rawSize columnCount ++ parts.flatten))) :
    decodeJsonl (fileOf (rowGroupHead 0 0 rowCount rawSize columnCount ++ parts.flatten)) schema =
        .ok text ↔
      ∃ decodedColumns, List.Forall₂ (Decoded rows) schema.columns decodedColumns ∧
        renderDecodedRows schema.columns decodedColumns rows.length = .ok text := by
  obtain ⟨hbody, -⟩ := fits_parts hfit
  obtain ⟨-, -, -, -, -, -, hat⟩ := @at_rowGroupHead rowCount rawSize columnCount parts.flatten
  have hlen : (rowGroupHead 0 0 rowCount rawSize columnCount ++ parts.flatten).length =
      40 + parts.flatten.length := by
    rw [List.length_append, length_rowGroupHead]
  simp only [decodeJsonl_fileOf hcols, readRowGroup_head hbody hcolumns, hcount,
    readColumns_write hbody hparts hat, hlen]
  constructor
  · rintro ⟨_, decodedColumns, ⟨rfl, hdecoded, -⟩, hrender⟩
    exact ⟨decodedColumns, hdecoded, hrender⟩
  · rintro ⟨decodedColumns, hdecoded, hrender⟩
    exact ⟨_, decodedColumns, ⟨rfl, hdecoded, trivial⟩, hrender⟩

/-- **A file comes back, and can be inspected, exactly when its rows are within the limits of the
decoders.** -/
theorem encodeJsonl_readable [Crc32Fast] [SerdeJson] {input : String} {schema : Schema}
    {file : List UInt8} (h : encodeJsonl input schema = .ok file) (hfit : Fits file) :
    ∃ rows, parseRows input = .ok rows ∧
      ((decodeJsonl file schema = .ok (renderRows schema.columns rows) ∧
          ∃ inspect, inspectJsonl file = .ok inspect ∧
            inspect.rowCount.toNat = ((lines input).filter fun line => !isBlank line).length) ↔
        WithinLimits schema.columns rows) := by
  obtain ⟨rows, parts, rowCount, rawSize, columnCount, hcols, hrows, hcount, hcolumns, hparts,
    rfl⟩ := encodeJsonl_ok h
  refine ⟨rows, hrows, ?_⟩
  have hlines : ((lines input).filter fun line => !isBlank line).length = rows.length :=
    (mapM_ok.1 hrows).length_eq
  obtain ⟨-, hne, -⟩ := validateImplementedSchema_ok hcols
  obtain ⟨hbody, hflat⟩ := fits_parts hfit
  obtain ⟨-, -, -, -, -, -, hat⟩ := @at_rowGroupHead rowCount rawSize columnCount parts.flatten
  simp only [hlines, decodeJsonl_written hcols hcount hcolumns hparts hfit, inspectJsonl_fileOf,
    inspectRowGroup_head hbody]
  constructor
  · rintro ⟨⟨decodedColumns, hdecoded, -⟩, inspect, ⟨_, _, _, ⟨-, hmax, -⟩, -⟩, -⟩
    refine ⟨Decoded.rows_le hne hdecoded, by rwa [← hcolumns], fun column hcolumn chunk hchunk =>
      (Decoded.limit hdecoded hcolumn hchunk).2⟩
  · intro hlimits
    obtain ⟨decodedColumns, hdecoded, hholds⟩ := exists_decoded hlimits hflat hparts
    refine ⟨⟨decodedColumns, hdecoded, renderDecodedRows_ok hholds⟩, ?_⟩
    obtain ⟨inspects, hinspects⟩ := repeatRead_inspect hbody hparts hat hcount
      fun column hcolumn chunk hchunk => Decoded.validateStatistics_ok hdecoded hcolumn hchunk
    have hbytes : schema.columns.length * 4 ≤ parts.flatten.length := by
      refine mul_length_le_flatten hparts fun column _ bytes hbytes => ?_
      obtain ⟨chunk, -, metadata, metadataLen, -, -, rfl⟩ := writeColumn_ok.1 hbytes
      rw [List.length_append, length_le32]
      exact Nat.le_add_right ..
    -- the inspector has its own limit on the number of columns
    refine ⟨⟨rowCount, rawSize, _, inspects⟩,
      ⟨rowCount, rawSize, inspects, ⟨⟨rfl, rfl⟩, ?_, ?_, ?_⟩, rfl⟩, hcount⟩
    · rw [hcolumns]
      exact hlimits.columns_le
    · rw [hcolumns]
      omega
    · rw [hcolumns, List.length_append, length_rowGroupHead]
      exact hinspects

open scoped CompactCore.Reference

/-- Two rows of one column of numbers. -/
theorem encodeJsonl_readable_two_rows :
    ∃ file, encodeJsonl Reference.idLines (Reference.idSchema .auto) = .ok file ∧
      decodeJsonl file (Reference.idSchema .auto) = .ok Reference.idLines ∧
      ∃ inspect, inspectJsonl file = .ok inspect ∧ inspect.rowCount = 2 := by
  obtain ⟨file, hfile, hfit⟩ := Reference.exists_ok
    (x := encodeJsonl Reference.idLines (Reference.idSchema .auto)) Fits (by decide +kernel)
  obtain ⟨rows, hrows, hiff⟩ := encodeJsonl_readable hfile hfit
  have hparse : parseRows Reference.idLines = .ok Reference.idRows := rfl
  obtain rfl : Reference.idRows = rows := by
    rw [hparse] at hrows
    cases hrows
    rfl
  have hlimits : WithinLimits (Reference.idSchema .auto).columns Reference.idRows := by
    refine ⟨by decide, by decide, fun column hcolumn _ _ _ => ?_⟩
    obtain rfl := List.mem_singleton.1 hcolumn
    exact Nat.zero_le _
  obtain ⟨hdecode, inspect, hinspect, hcount⟩ := hiff.2 hlimits
  refine ⟨file, hfile, ?_, inspect, hinspect, UInt64.toNat_inj.1 hcount⟩
  rw [hdecode]
  rfl

/-! ### A table of any length -/

/-- The chunk of a table of equal rows, stored as they are. -/
def repeatedChunk (n : ℕ) : EncodedColumnChunk where
  metadata := {
    name := "id"
    valueType := .u64
    nullable := false
    codec := .stored
    valueCount := UInt64.ofNat n
    nullCount := 0
    rawSize := UInt64.ofNat (n * 8)
    compressedSize := UInt64.ofNat (n * 8)
    codecMetadata := le64 (UInt64.ofNat n)
    statisticsMetadata := Statistics.encodeU64 (List.replicate n 1).min? (List.replicate n 1).max? }
  payload := (List.replicate n 1).flatMap le64

theorem length_repeatedChunk (n : ℕ) : (repeatedChunk n).payload.length = n * 8 := by
  rw [repeatedChunk, NumericColumn.length_flatMap_le64, List.length_replicate]

theorem collectCells_repeated (n : ℕ) :
    collectCells NumericColumn.texts Value.asU64 ⟨"id", .u64, .stored, false⟩
      (List.replicate n Reference.idRow) = .ok (List.replicate n true, List.replicate n 1) := by
  refine collectCells_ok.2 ⟨List.replicate n (some 1), ?_, ?_, ?_⟩
  · refine List.forall₂_iff_get.2 ⟨by simp, fun i _ _ => ?_⟩
    simp only [List.get_eq_getElem, List.getElem_replicate]
    rfl
  · rw [List.map_replicate]
    rfl
  · simp [List.reduceOption]

theorem encodeColumn_repeated {n : ℕ} (hn : n * 8 < 2 ^ 64) :
    encodeColumn ⟨"id", .u64, .stored, false⟩ (List.replicate n Reference.idRow) =
      .ok (repeatedChunk n) := by
  have hcount : (UInt64.ofNat n).toNat = n := by
    rw [UInt64.toNat_ofNat', Nat.mod_eq_of_lt (by omega)]
  have hvalues : (UInt64.ofNat n).toNat = (List.replicate n (1 : UInt64)).length := by
    rw [hcount, List.length_replicate]
  have hnull : (0 : UInt64).toNat = (List.replicate n true).count false := by
    rw [List.count_replicate]
    rfl
  have hraw : checkedMul (UInt64.ofNat n) 8 = some (UInt64.ofNat (n * 8)) := by
    rw [checkedMul, hcount]
    exact if_pos hn
  have hsize : (UInt64.ofNat (n * 8)).toNat = (repeatedChunk n).payload.length := by
    rw [UInt64.toNat_ofNat', Nat.mod_eq_of_lt hn, length_repeatedChunk]
  simp only [encodeColumn, reduceCtorEq, if_false, encodeExplicit, encodeU64Column,
    NumericColumn.collectValues, NumericColumn.encodeValues, NumericColumn.countU64_ok, bind_ok,
    Prod.exists, collectCells_repeated, okOr_ok, pure_ok, List.length_replicate]
  exact ⟨(), rfl, _, _, rfl, _, _, ⟨_, hvalues, rfl⟩, _, hcount, _, hnull, _, hvalues, _, hraw, _,
    hsize, rfl⟩

theorem exists_writeColumn_repeated {n : ℕ} (hn : n * 8 < 2 ^ 64) :
    ∃ bytes, writeColumn (List.replicate n Reference.idRow) ⟨"id", .u64, .stored, false⟩ =
      .ok bytes ∧ bytes.length ≤ n * 8 + 76 := by
  have hstatistics := Statistics.length_encodeU64_le (List.replicate n 1).min?
    (List.replicate n 1).max?
  have hvalid : (repeatedChunk n).metadata.Valid :=
    ⟨by simp [repeatedChunk], Nat.zero_le _, fun _ => rfl, rfl⟩
  have hname : (asBytes (repeatedChunk n).metadata.name).length = 2 := rfl
  have hcodec : (repeatedChunk n).metadata.codecMetadata.length = 8 := rfl
  obtain ⟨metadata, hmetadata, hlen⟩ := exists_encodeColumnMetadata hvalid (by omega) (by omega)
    (lt_of_le_of_lt hstatistics (by decide))
  have hle : metadata.length ≤ 72 := by
    rw [hlen, hname, hcodec]
    exact Nat.add_le_add_left hstatistics 55
  simp only [writeColumn, bind_ok, pure_ok]
  refine ⟨_, ⟨_, encodeColumn_repeated hn, metadata, hmetadata, _, if_pos (by omega), rfl⟩, ?_⟩
  rw [List.length_append, List.length_append, length_repeatedChunk, length_le32]
  omega

/-- The encoder takes a table of any length that fits into memory. -/
theorem exists_encodeJsonl_repeated [Crc32Fast] {n : ℕ} (hn : n < 2 ^ 60) :
    ∃ file, encodeJsonl (Reference.repeated n) (Reference.idSchema .stored) = .ok file ∧
      Fits file := by
  obtain ⟨bytes, hbytes, hlen⟩ := exists_writeColumn_repeated (n := n) (by omega)
  have hmap :
      (Reference.idSchema .stored).columns.mapM (writeColumn (List.replicate n Reference.idRow)) =
      .ok [bytes] := mapM_ok.2 (List.Forall₂.cons hbytes List.Forall₂.nil)
  have hcols : validateImplementedSchema (Reference.idSchema .stored) =
      .ok (Reference.idSchema .stored).columns := rfl
  simp only [encodeJsonl, bind_ok, pure_ok, hcols, Except.ok.injEq, exists_eq_left',
    Reference.parseRows_repeated, Reference.length_asBytes_repeated, List.length_replicate, hmap]
  refine ⟨_, ⟨_, if_pos (by omega), _, if_pos (by omega), 1, rfl, rfl⟩, ?_⟩
  have hheader : encodeEmptyHeader.length = 10 := rfl
  show _ < 2 ^ 64
  rw [List.length_append, List.length_append, List.length_append, length_rowGroupHead, hheader,
    length_le32, List.flatten_singleton]
  omega

/-- The file of one row more than a decoder takes is written, and does not come back. -/
theorem decodeJsonl_above_limit :
    ∃ file, encodeJsonl (Reference.repeated (maxDecodedValues + 1)) (Reference.idSchema .stored) =
        .ok file ∧ ∀ text, decodeJsonl file (Reference.idSchema .stored) ≠ .ok text := by
  have hn : maxDecodedValues + 1 < 2 ^ 60 := by decide
  obtain ⟨file, hfile, hfit⟩ := exists_encodeJsonl_repeated hn
  refine ⟨file, hfile, fun text hdecode => ?_⟩
  obtain ⟨rows, parts, rowCount, rawSize, columnCount, hcols, hrows, hcount, hcolumns, hparts,
    rfl⟩ := encodeJsonl_ok hfile
  rw [Reference.parseRows_repeated] at hrows
  cases hrows
  obtain ⟨decodedColumns, hdecoded, -⟩ :=
    (decodeJsonl_written hcols hcount hcolumns hparts hfit).1 hdecode
  have hle := Decoded.rows_le (by simp [Reference.idSchema]) hdecoded
  rw [List.length_replicate] at hle
  exact absurd hle (Nat.not_succ_le_self _)

end CompactCore.Io.V3
