/-
**The `CMP3` readers as checked code.**

A file is a header and a row group with its checksum.  The decoder and the inspector cut the
checksum off, read the metadata of every column, and the decoder reads the columns.

Main definitions:

* `CompactCore.Checked.Format.readHeader`, `CompactCore.Checked.Format.V3.decodeColumnMetadata`,
  `CompactCore.Checked.Statistics.decode` — the parts that `CMP4` files share;
* `CompactCore.Checked.Io.V3.decodeJsonl`, `CompactCore.Checked.Io.V3.inspectJsonl` — the readers.

Main results:

* `CompactCore.Checked.Io.V3.decodeColumn_total` — no column of either format panics;
* `CompactCore.Checked.Io.V3.decodeJsonl_total`, `CompactCore.Checked.Io.V3.inspectJsonl_total` —
  **the readers do not panic**.
-/

import CompactCore.Checked.Codecs
import CompactCore.Io.V3.RoundTrip

set_option relaxedAutoImplicit false
set_option autoImplicit false

/-! ### Headers -/

namespace CompactCore.Checked.Format

open Wire Fault CompactError
open CompactCore.Format (FileHeader fileHeaderLen)

/-- Parse and validate the header of the format that `tag` names in error texts. -/
def readHeader (tag : String) (magic : List UInt8) (version : UInt8) (data : List UInt8) :
    Outcome FileHeader := do
  failIf (data.length < fileHeaderLen) (error (invalidInput (tag ++ " header is truncated")))
  let fileMagic ← sliceTo data 4
  failIf (fileMagic ≠ magic) (error (invalidInput ("invalid " ++ tag ++ " magic")))
  let fileVersion ← index data 4
  failIf (fileVersion ≠ version) (error (unsupported (tag ++ " version")))
  let flags ← index data 5
  failIf (flags ≠ 0) (error (unsupported (tag ++ " flags")))
  let lenBytes ← slice data 6 10
  require (lenBytes.length = 4)
  let payloadLen := (u32OfLe lenBytes).toNat
  let bodyOffset ← okOr (error (invalidInput (tag ++ " header length overflow")))
    (usizeAdd fileHeaderLen payloadLen)
  failIf (data.length < bodyOffset)
    (error (invalidInput (tag ++ " header payload is truncated")))
  let payload ← slice data fileHeaderLen bodyOffset
  return ⟨flags, payload, bodyOffset⟩

theorem readHeader_total (tag : String) (magic : List UInt8) (version : UInt8)
    (data : List UInt8) : readHeader tag magic version data =
      total (CompactCore.Format.readHeader tag magic version data) := by
  rw [readHeader, CompactCore.Format.readHeader]
  refine total_bind_of (total_failIf _ _).symm fun _ hlen => ?_
  -- the length test covers the fixed part of the header
  have hlen : 10 ≤ data.length := not_lt.1 (failIf_ok.1 hlen)
  rw [ok_bind_eq (sliceTo_of (by omega))]
  refine total_bind_of (total_failIf _ _).symm fun _ _ => ?_
  rw [ok_bind_eq (index_getD 0 (by omega))]
  refine total_bind_of (total_failIf _ _).symm fun _ _ => ?_
  rw [ok_bind_eq (index_getD 0 (by omega))]
  refine total_bind_of (total_failIf _ _).symm fun _ _ => ?_
  rw [ok_bind_eq (slice_of (by omega) hlen), require_bind (length_slice (by omega) hlen)]
  refine total_bind_of (total_okOr _ _).symm fun bodyOffset hoffset => ?_
  have hoffset := (usizeAdd_eq_some.1 (okOr_ok.1 hoffset)).2
  refine total_bind_of (total_failIf _ _).symm fun _ hend => ?_
  have hend : bodyOffset ≤ data.length := not_lt.1 (failIf_ok.1 hend)
  rw [ok_bind_eq (slice_of (by omega) hend), ← hoffset, Nat.add_sub_cancel_left]
  rfl

/-- The header of a file ends inside the file. -/
theorem bodyOffset_le {tag : String} {magic data : List UInt8} {version : UInt8}
    {header : FileHeader} (h : CompactCore.Format.readHeader tag magic version data = .ok header) :
    header.bodyOffset ≤ data.length := by
  simp only [CompactCore.Format.readHeader, bind_ok, failIf_ok, not_lt, pure_ok] at h
  obtain ⟨_, -, _, -, _, -, _, -, bodyOffset, -, _, hle, rfl⟩ := h
  exact hle

end CompactCore.Checked.Format

/-! ### Column metadata -/

namespace CompactCore.Checked.Format.V3

open Wire Fault CompactError
open CompactCore.Format (FileHeader)
open CompactCore.Format.V3 (ColumnChunkMetadata idToValueType idToNullable idToCodec
  validateColumnMetadata)

def decodeHeader (data : List UInt8) : Outcome FileHeader :=
  readHeader "cmp3" magicV3 versionV3 data

def readBytes (err : String) : ℕ → CheckedReader (List UInt8) :=
  Checked.readExact (invalidInput "cmp3 metadata length overflow") (invalidInput err)

/-- The fields of a record, in order. -/
def readColumnMetadata : CheckedReader ColumnChunkMetadata := do
  let nameLen ← Checked.readUInt16 (readBytes "cmp3 column name length is truncated")
  let nameBytes ← readBytes "cmp3 column name is truncated" nameLen.toNat
  let name ←
    liftM (okOr (error (invalidInput "cmp3 column name must be utf-8")) (fromUtf8 nameBytes))
  let valueTypeId ← Checked.readUInt8 (readBytes "cmp3 column value type is truncated")
  let valueType ← liftM (total (idToValueType valueTypeId))
  let nullableFlag ← Checked.readUInt8 (readBytes "cmp3 nullable flag is truncated")
  let nullable ← liftM (total (idToNullable nullableFlag))
  let codecId ← Checked.readUInt8 (readBytes "cmp3 codec id is truncated")
  let codec ← liftM (total (idToCodec codecId))
  let valueCount ← Checked.readUInt64 (readBytes "cmp3 value count is truncated")
  let nullCount ← Checked.readUInt64 (readBytes "cmp3 null count is truncated")
  let rawSize ← Checked.readUInt64 (readBytes "cmp3 raw size is truncated")
  let compressedSize ← Checked.readUInt64 (readBytes "cmp3 compressed size is truncated")
  let codecMetadataLen ←
    Checked.readUInt32 (readBytes "cmp3 codec metadata length is truncated")
  let codecMetadata ← readBytes "cmp3 codec metadata is truncated" codecMetadataLen.toNat
  let statisticsMetadataLen ←
    Checked.readUInt32 (readBytes "cmp3 statistics metadata length is truncated")
  let statisticsMetadata ←
    readBytes "cmp3 statistics metadata is truncated" statisticsMetadataLen.toNat
  let metadata : ColumnChunkMetadata := {
    name := name
    valueType := valueType
    nullable := nullable
    codec := codec
    valueCount := valueCount
    nullCount := nullCount
    rawSize := rawSize
    compressedSize := compressedSize
    codecMetadata := codecMetadata
    statisticsMetadata := statisticsMetadata }
  liftM (total (validateColumnMetadata metadata))
  return metadata

/-- Decode one column metadata record and return the number of consumed bytes. -/
def decodeColumnMetadata (data : List UInt8) : Outcome (ColumnChunkMetadata × ℕ) :=
  readColumnMetadata data 0

theorem reads_readBytes (err : String) : Checked.Reads (readBytes err)
    (invalidInput "cmp3 metadata length overflow") (invalidInput err) := Checked.reads_readExact

theorem decodeColumnMetadata_total (data : List UInt8) : decodeColumnMetadata data =
    total (CompactCore.Format.V3.decodeColumnMetadata data) := by
  rw [decodeColumnMetadata, readColumnMetadata, CompactCore.Format.V3.decodeColumnMetadata,
    CompactCore.Format.V3.readColumnMetadata]
  refine Reader.total_bind_of (Checked.readUInt16_total (reads_readBytes _)) fun _ _ _ => ?_
  refine Reader.total_bind_of (reads_readBytes _ _ _ _) fun _ _ _ => ?_
  refine Reader.total_bind_of (Reader.total_lift_of (total_okOr _ _).symm) fun _ _ _ => ?_
  refine Reader.total_bind_of (Checked.readUInt8_total (reads_readBytes _)) fun _ _ _ => ?_
  refine Reader.total_bind_of (Reader.total_lift_of rfl) fun _ _ _ => ?_
  refine Reader.total_bind_of (Checked.readUInt8_total (reads_readBytes _)) fun _ _ _ => ?_
  refine Reader.total_bind_of (Reader.total_lift_of rfl) fun _ _ _ => ?_
  refine Reader.total_bind_of (Checked.readUInt8_total (reads_readBytes _)) fun _ _ _ => ?_
  refine Reader.total_bind_of (Reader.total_lift_of rfl) fun _ _ _ => ?_
  refine Reader.total_bind_of (Checked.readUInt64_total (reads_readBytes _)) fun _ _ _ => ?_
  refine Reader.total_bind_of (Checked.readUInt64_total (reads_readBytes _)) fun _ _ _ => ?_
  refine Reader.total_bind_of (Checked.readUInt64_total (reads_readBytes _)) fun _ _ _ => ?_
  refine Reader.total_bind_of (Checked.readUInt64_total (reads_readBytes _)) fun _ _ _ => ?_
  refine Reader.total_bind_of (Checked.readUInt32_total (reads_readBytes _)) fun _ _ _ => ?_
  refine Reader.total_bind_of (reads_readBytes _ _ _ _) fun _ _ _ => ?_
  refine Reader.total_bind_of (Checked.readUInt32_total (reads_readBytes _)) fun _ _ _ => ?_
  refine Reader.total_bind_of (reads_readBytes _ _ _ _) fun _ _ _ => ?_
  exact Reader.total_bind_of (Reader.total_lift_of rfl) fun _ _ _ => rfl

/-- The null count of a decoded record was compared with its value count. -/
theorem nullCount_le {data : List UInt8} {metadata : ColumnChunkMetadata} {consumed : ℕ}
    (hfit : Fits data)
    (h : CompactCore.Format.V3.decodeColumnMetadata data = .ok (metadata, consumed)) :
    metadata.nullCount ≤ metadata.valueCount := by
  obtain ⟨bytes, hencode, -, -⟩ := (CompactCore.Format.V3.decodeColumnMetadata_ok hfit).1 h
  exact (CompactCore.Format.V3.encodeColumnMetadata_valid hencode).null_le

end CompactCore.Checked.Format.V3

/-! ### Statistics -/

namespace CompactCore.Checked.Statistics

open Wire Fault CompactError
open CompactCore.Statistics (noneTag u64Range boolCounts stringCardinality)

/-- A word out of all the bytes that are left. -/
def word (bytes : List UInt8) : Outcome UInt64 := do
  require (bytes.length = 8)
  return u64OfLe bytes

def decode (data : List UInt8) : Outcome ColumnStatistics :=
  match data with
  | [] => .error (error (invalidInput "invalid cmp3 statistics metadata"))
  | tag :: rest =>
      if tag = noneTag ∧ rest = [] then .ok .none
      else if tag = u64Range ∧ rest.length = 16 then do
        let minBytes ← sliceTo rest 8
        let min ← word minBytes
        let maxBytes ← sliceFrom rest 8
        let max ← word maxBytes
        failIf (max < min) (error (invalidInput "cmp3 u64 statistics min exceeds max"))
        return .u64 min max
      else if tag = boolCounts ∧ rest.length = 8 then do
        let trueCount ← word rest
        return .bool trueCount
      else if tag = stringCardinality ∧ rest.length = 8 then do
        let distinctCount ← word rest
        return .string distinctCount
      else .error (error (invalidInput "invalid cmp3 statistics metadata"))

theorem word_of {bytes : List UInt8} (h : bytes.length = 8) :
    word bytes = .ok (u64OfLe bytes) := require_bind h _

theorem decode_total (data : List UInt8) : decode data =
    total (CompactCore.Statistics.decode data) := by
  cases data with
  | nil => rfl
  | cons tag rest =>
      rw [decode, CompactCore.Statistics.decode]
      split
      · rfl
      · split
        · rename_i hrange
          rw [ok_bind_eq (sliceTo_of (by omega)),
            ok_bind_eq (word_of (by rw [List.length_take]; omega)),
            ok_bind_eq (sliceFrom_of (by omega)),
            ok_bind_eq (word_of (by rw [List.length_drop]; omega))]
          exact total_bind_of (total_failIf _ _).symm fun _ _ => rfl
        · split
          · rename_i hbool
            rw [ok_bind_eq (word_of hbool.2)]
            rfl
          · split
            · rename_i hstring
              rw [ok_bind_eq (word_of hstring.2)]
              rfl
            · rfl

end CompactCore.Checked.Statistics

/-! ### Columns -/

namespace CompactCore.Checked.Io.V3

open Wire Fault CompactError
open CompactCore.Format.V3 (ColumnChunkMetadata)
open CompactCore.Io.V3 (DecodedColumn)

def validateStatistics (metadata : ColumnChunkMetadata) : Outcome Unit := do
  let statistics ← Statistics.decode metadata.statisticsMetadata
  let nonNullCount ← subU64 metadata.valueCount metadata.nullCount
  let accepted : Bool :=
    match metadata.valueType, statistics with
    | .u64, .none => nonNullCount == 0
    | .u64, .u64 _ _ => true
    | .bool, .bool trueCount => trueCount ≤ nonNullCount
    | .string, .string distinctCount => distinctCount ≤ nonNullCount
    | _, _ => false
  failIf (accepted = false) (error (invalidInput "cmp3 statistics do not match column metadata"))

def validateDecodedStatistics (metadata : ColumnChunkMetadata) (decoded : DecodedColumn) :
    Outcome Unit := do
  let statistics ← Statistics.decode metadata.statisticsMetadata
  let agree : Bool :=
    match decoded, statistics with
    | .u64 values, .none => values.all Option.isNone
    | .u64 values, .u64 min max =>
        values.reduceOption.min? == some min && values.reduceOption.max? == some max
    | .bool values, .bool trueCount => UInt64.ofNat (values.count (some true)) == trueCount
    | .string values, .string distinctCount =>
        UInt64.ofNat values.reduceOption.dedup.length == distinctCount
    | _, _ => false
  failIf (agree = false) (error (invalidInput "cmp3 statistics do not match decoded values"))

/-- Decode the values of a column, as its type has them. -/
def decodeValues (metadata : ColumnChunkMetadata) (payload : List UInt8) : Outcome DecodedColumn :=
  match metadata.valueType with
  | .bool => do
      let values ← Codecs.V3.decodeBooleanColumn metadata payload
      return .bool values
  | .u64 => do
      let values ← Codecs.V3.decodeU64Column metadata payload
      return .u64 values
  | .string => do
      let values ← Codecs.V3.decodeStringColumn metadata payload
      return .string values

def decodeColumn (metadata : ColumnChunkMetadata) (payload : List UInt8) :
    Outcome DecodedColumn := do
  validateStatistics metadata
  let decoded ← decodeValues metadata payload
  validateDecodedStatistics metadata decoded
  return decoded

theorem validateStatistics_total {metadata : ColumnChunkMetadata}
    (hle : metadata.nullCount ≤ metadata.valueCount) :
    validateStatistics metadata = total (CompactCore.Io.V3.validateStatistics metadata) := by
  rw [validateStatistics, CompactCore.Io.V3.validateStatistics]
  refine total_bind_of (Statistics.decode_total _) fun statistics _ => ?_
  rw [ok_bind_eq (Codecs.V3.subCounts_of hle)]
  exact (total_failIf _ _).symm

theorem validateDecodedStatistics_total (metadata : ColumnChunkMetadata)
    (decoded : DecodedColumn) : validateDecodedStatistics metadata decoded =
      total (CompactCore.Io.V3.validateDecodedStatistics metadata decoded) := by
  rw [validateDecodedStatistics, CompactCore.Io.V3.validateDecodedStatistics]
  refine total_bind_of (Statistics.decode_total _) fun statistics _ => ?_
  exact (total_failIf _ _).symm

/-- **A column is decoded without a panic**, whatever codec its metadata names. -/
theorem decodeColumn_total {metadata : ColumnChunkMetadata} {payload : List UInt8}
    (hle : metadata.nullCount ≤ metadata.valueCount) (hfit : Fits payload) :
    decodeColumn metadata payload = total (CompactCore.Io.V3.decodeColumn metadata payload) := by
  have hvalues : decodeValues metadata payload =
      total (CompactCore.Io.V3.decodeValues metadata payload) := by
    unfold decodeValues CompactCore.Io.V3.decodeValues
    cases metadata.valueType with
    | bool => exact total_bind_of (Codecs.V3.decodeBooleanColumn_total _ _) fun _ _ => rfl
    | u64 => exact total_bind_of (Codecs.V3.decodeU64Column_total _ hfit) fun _ _ => rfl
    | string => exact total_bind_of (Codecs.V3.decodeStringColumn_total _ hfit) fun _ _ => rfl
  rw [decodeColumn, CompactCore.Io.V3.decodeColumn]
  refine total_bind_of (validateStatistics_total hle) fun _ _ => ?_
  refine total_bind_of hvalues fun decoded _ => ?_
  exact total_bind_of (validateDecodedStatistics_total metadata decoded) fun _ _ => rfl

end CompactCore.Checked.Io.V3

/-! ### Where the columns of a file are -/

namespace CompactCore.Io.V3

open Wire CompactError Format Format.V3

/-- What both readers do before they read columns: the row group without its checksum, which is
verified. -/
def rowGroupBody [Crc32Fast] (data : List UInt8) (bodyOffset : ℕ) : Result (List UInt8) := do
  let rowGroup := data.drop bodyOffset
  failIf (rowGroup.length < checksumLen) (invalidInput "cmp3 row group is truncated")
  let checksumOffset := rowGroup.length - checksumLen
  failIf (verify (rowGroup.take checksumOffset) (u32OfLe (rowGroup.drop checksumOffset)) = false)
    (invalidInput "cmp3 row group checksum mismatch")
  return rowGroup.take checksumOffset

theorem decodeJsonl_eq [Crc32Fast] [SerdeJson] (data : List UInt8) (schema : Schema) :
    decodeJsonl data schema = (do
      let columns ← validateImplementedSchema schema
      let header ← decodeHeader data
      failIf (header.payload ≠ []) (unsupported "cmp3 header payload")
      let body ← rowGroupBody data header.bodyOffset
      let ((rowCount, decodedColumns), cursor) ← readRowGroup columns body 0
      failIf (cursor ≠ body.length) (invalidInput "cmp3 row group has trailing bytes")
      renderDecodedRows columns decodedColumns rowCount) := by
  simp only [decodeJsonl, rowGroupBody, bind_assoc, pure_bind]

theorem inspectJsonl_eq [Crc32Fast] (data : List UInt8) :
    inspectJsonl data = (do
      let header ← decodeHeader data
      let body ← rowGroupBody data header.bodyOffset
      let ((rowCount, rawSize, columns), cursor) ← inspectRowGroup body 0
      failIf (cursor ≠ body.length) (invalidInput "cmp3 row group has trailing bytes")
      return ⟨rowCount, rawSize, data.length, columns⟩) := by
  simp only [inspectJsonl, rowGroupBody, bind_assoc, pure_bind]

theorem fits_rowGroupBody [Crc32Fast] {data body : List UInt8} {bodyOffset : ℕ} (hfit : Fits data)
    (h : rowGroupBody data bodyOffset = .ok body) : Fits body := by
  simp only [rowGroupBody, bind_ok, pure_ok] at h
  obtain ⟨_, -, _, -, rfl⟩ := h
  have hlen := hfit.drop bodyOffset
  rw [Fits, List.length_take] at *
  omega

end CompactCore.Io.V3

/-! ### The readers -/

namespace CompactCore.Checked.Io.V3

open Wire Fault CompactError
open CompactCore.Format.V3 (ColumnChunkMetadata)
open CompactCore.Io.V3 (DecodedColumn ColumnInspect Inspect rowGroupMagic checksumLen
  validateImplementedSchema validateMetadataAgainstSchema renderDecodedRows)

/-- The bytes of a `DecodedColumn`: a vector with the tag that says of what. -/
def sizeOfDecodedColumn : ℕ := 4 * 8

/-- The bytes of a `ColumnInspect`: a metadata record and its statistics. -/
def sizeOfColumnInspect : ℕ := 3 * 24 + 4 * 8 + 8 + 24

def readBytes (err : String) : ℕ → CheckedReader (List UInt8) :=
  Checked.readExact (invalidInput "cmp3 row group length overflow") (invalidInput err)

/-- The row group without its checksum, which is verified. -/
def rowGroupBody [Crc32Fast] (data : List UInt8) (bodyOffset : ℕ) : Outcome (List UInt8) := do
  let rowGroup ← okOr (error (invalidInput "cmp3 row group is truncated"))
    (getFrom data bodyOffset)
  failIf (rowGroup.length < checksumLen) (error (invalidInput "cmp3 row group is truncated"))
  let checksumOffset ← subUsize rowGroup.length checksumLen
  let sumBytes ← sliceFrom rowGroup checksumOffset
  require (sumBytes.length = 4)
  let covered ← sliceTo rowGroup checksumOffset
  failIf (verify covered (u32OfLe sumBytes) = false)
    (error (invalidInput "cmp3 row group checksum mismatch"))
  sliceTo rowGroup checksumOffset

def readColumn (rowCount : ℕ) (column : ColumnSchema) : CheckedReader DecodedColumn := do
  let metadataLen ← Checked.readUInt32 (readBytes "cmp3 column metadata length is truncated")
  let metadataBytes ← readBytes "cmp3 column metadata is truncated" metadataLen.toNat
  let (metadata, consumed) ← liftM (Format.V3.decodeColumnMetadata metadataBytes)
  liftM (failIf (consumed ≠ metadataBytes.length)
    (error (invalidInput "cmp3 column metadata has trailing bytes")))
  liftM (total (validateMetadataAgainstSchema metadata column rowCount))
  let payloadLen ←
    liftM (total (tryUsize metadata.compressedSize "cmp3 column payload is too large"))
  let payload ← readBytes "cmp3 column payload is truncated" payloadLen
  liftM (decodeColumn metadata payload)

def readColumns (rowCount : ℕ) : List ColumnSchema → CheckedReader (List DecodedColumn)
  | [] => pure []
  | column :: columns => do
      let decoded ← readColumn rowCount column
      let decodedColumns ← readColumns rowCount columns
      return decoded :: decodedColumns

/-- The row count and the decoded columns of the only row group. -/
def readRowGroup (columns : List ColumnSchema) : CheckedReader (ℕ × List DecodedColumn) := do
  let magic ← readBytes "cmp3 row group magic is truncated" 4
  liftM (failIf (magic ≠ rowGroupMagic) (error (invalidInput "invalid cmp3 row group magic")))
  let blockIndex ← Checked.readUInt64 (readBytes "cmp3 block index is truncated")
  liftM (failIf (blockIndex ≠ 0)
    (error (invalidInput "cmp3 single row group must have block index zero")))
  let firstRowIndex ← Checked.readUInt64 (readBytes "cmp3 first row index is truncated")
  liftM (failIf (firstRowIndex ≠ 0)
    (error (invalidInput "cmp3 single row group must start at row zero")))
  let rowCount ← Checked.readUInt64 (readBytes "cmp3 row count is truncated")
  let rowCount ← liftM (total (tryUsize rowCount "cmp3 row count is too large"))
  let _ ← Checked.readUInt64 (readBytes "cmp3 raw jsonl size is truncated")
  let columnCount ← Checked.readUInt32 (readBytes "cmp3 column count is truncated")
  liftM (failIf (columnCount.toNat ≠ columns.length)
    (error (invalidInput "cmp3 column count does not match schema")))
  liftM (withCapacity sizeOfDecodedColumn columnCount.toNat : Outcome Unit)
  let decodedColumns ← readColumns rowCount columns
  return (rowCount, decodedColumns)

/-- Decode a single-row-group `CMP3` file into canonical JSONL. -/
def decodeJsonl [Crc32Fast] [SerdeJson] (data : List UInt8) (schema : Schema) :
    Outcome String := do
  let columns ← total (validateImplementedSchema schema)
  let header ← Format.V3.decodeHeader data
  failIf (header.payload ≠ []) (error (unsupported "cmp3 header payload"))
  let body ← rowGroupBody data header.bodyOffset
  let ((rowCount, decodedColumns), cursor) ← readRowGroup columns body 0
  failIf (cursor ≠ body.length) (error (invalidInput "cmp3 row group has trailing bytes"))
  total (renderDecodedRows columns decodedColumns rowCount)

/-- The metadata of a column, and past its values. -/
def inspectColumn (rowCount : UInt64) : CheckedReader ColumnInspect := do
  let metadataLen ← Checked.readUInt32 (readBytes "cmp3 column metadata length is truncated")
  let bytes ← readBytes "cmp3 column metadata is truncated" metadataLen.toNat
  let (metadata, consumed) ← liftM (Format.V3.decodeColumnMetadata bytes)
  liftM (failIf (consumed ≠ bytes.length)
    (error (invalidInput "cmp3 column metadata has trailing bytes")))
  liftM (failIf (metadata.valueCount ≠ rowCount)
    (error (invalidInput "cmp3 column value count does not match row group")))
  let statistics ← liftM (Statistics.decode metadata.statisticsMetadata)
  liftM (validateStatistics metadata)
  let payloadLen ←
    liftM (total (tryUsize metadata.compressedSize "cmp3 column payload is too large"))
  let _ ← readBytes "cmp3 column payload is truncated" payloadLen
  return ⟨metadata, statistics⟩

/-- The row count, the raw size and the columns of a row group. -/
def inspectRowGroup : CheckedReader (UInt64 × UInt64 × List ColumnInspect) := do
  let magic ← readBytes "cmp3 row group magic is truncated" rowGroupMagic.length
  liftM (failIf (magic ≠ rowGroupMagic) (error (invalidInput "invalid cmp3 row group magic")))
  let _ ← Checked.readUInt64 (readBytes "cmp3 block index is truncated")
  let _ ← Checked.readUInt64 (readBytes "cmp3 first row index is truncated")
  let rowCount ← Checked.readUInt64 (readBytes "cmp3 row count is truncated")
  let rawSize ← Checked.readUInt64 (readBytes "cmp3 raw jsonl size is truncated")
  let columnCount ← Checked.readUInt32 (readBytes "cmp3 column count is truncated")
  let columnCount := columnCount.toNat
  let remaining ← Reader.remaining
  liftM (failIf (maxCollectionEntries < columnCount ∨ remaining / 4 < columnCount)
    (error (invalidInput "cmp3 column count exceeds row group bounds")))
  liftM (withCapacity sizeOfColumnInspect columnCount : Outcome Unit)
  let columns ← Reader.repeatRead (inspectColumn rowCount) columnCount
  return (rowCount, rawSize, columns)

/-- Inspect metadata and statistics without decoding column values. -/
def inspectJsonl [Crc32Fast] (data : List UInt8) : Outcome Inspect := do
  let header ← Format.V3.decodeHeader data
  let body ← rowGroupBody data header.bodyOffset
  let ((rowCount, rawSize, columns), cursor) ← inspectRowGroup body 0
  failIf (cursor ≠ body.length) (error (invalidInput "cmp3 row group has trailing bytes"))
  return ⟨rowCount, rawSize, data.length, columns⟩

theorem reads_readBytes (err : String) : Checked.Reads (readBytes err)
    (invalidInput "cmp3 row group length overflow") (invalidInput err) := Checked.reads_readExact

/-- The checksum is the last four bytes of a row group that has four. -/
theorem rowGroupBody_total [Crc32Fast] {data : List UInt8} {bodyOffset : ℕ}
    (hoffset : bodyOffset ≤ data.length) :
    rowGroupBody data bodyOffset = total (CompactCore.Io.V3.rowGroupBody data bodyOffset) := by
  rw [rowGroupBody, CompactCore.Io.V3.rowGroupBody,
    ok_bind_eq (okOr_ok.2 (getFrom_of hoffset))]
  refine total_bind_of (total_failIf _ _).symm fun _ hlen => ?_
  have hlen : checksumLen ≤ (data.drop bodyOffset).length := not_lt.1 (failIf_ok.1 hlen)
  have hsum : ((data.drop bodyOffset).drop ((data.drop bodyOffset).length - checksumLen)).length =
      4 := by
    rw [List.length_drop, Nat.sub_sub_self hlen]
    rfl
  rw [ok_bind_eq (subUsize_of hlen), ok_bind_eq (sliceFrom_of (Nat.sub_le ..)), require_bind hsum,
    ok_bind_eq (sliceTo_of (Nat.sub_le ..))]
  refine total_bind_of (total_failIf _ _).symm fun _ _ => ?_
  rw [sliceTo_of (Nat.sub_le ..)]
  rfl

theorem readColumn_total {data : List UInt8} (hfit : Fits data) (rowCount : ℕ)
    (column : ColumnSchema) (c : ℕ) : readColumn rowCount column data c =
      total (CompactCore.Io.V3.readColumn rowCount column data c) := by
  rw [readColumn, CompactCore.Io.V3.readColumn]
  refine Reader.total_bind_of (Checked.readUInt32_total (reads_readBytes _)) fun _ _ _ => ?_
  refine Reader.total_bind_of (reads_readBytes _ _ _ _) fun metadataBytes _ hbytes => ?_
  have hfit' : Fits metadataBytes := hfit.of_at (readExact_at hbytes).1
  refine Reader.total_bind_of (Reader.total_lift_of (Format.V3.decodeColumnMetadata_total _))
    fun r _ hmetadata => ?_
  rcases r with ⟨metadata, consumed⟩
  have hle := Format.V3.nullCount_le hfit' (Reader.lift_ok.1 hmetadata).1
  refine Reader.total_bind_of (Reader.total_lift_of (total_failIf _ _).symm) fun _ _ _ => ?_
  refine Reader.total_bind_of (Reader.total_lift_of rfl) fun _ _ _ => ?_
  refine Reader.total_bind_of (Reader.total_lift_of rfl) fun _ _ _ => ?_
  refine Reader.total_bind_of (reads_readBytes _ _ _ _) fun payload _ hpayload => ?_
  exact Reader.total_lift_of (decodeColumn_total hle (hfit.of_at (readExact_at hpayload).1))

theorem readColumns_total {data : List UInt8} (hfit : Fits data) (rowCount : ℕ)
    (columns : List ColumnSchema) (c : ℕ) : readColumns rowCount columns data c =
      total (CompactCore.Io.V3.readColumns rowCount columns data c) := by
  induction columns generalizing c with
  | nil => rfl
  | cons column columns ih =>
      rw [readColumns, CompactCore.Io.V3.readColumns]
      refine Reader.total_bind_of (readColumn_total hfit rowCount column c) fun _ c₁ _ => ?_
      exact Reader.total_bind_of (ih c₁) fun _ _ _ => rfl

theorem readRowGroup_total {data : List UInt8} (hfit : Fits data) (columns : List ColumnSchema) :
    readRowGroup columns data 0 = total (CompactCore.Io.V3.readRowGroup columns data 0) := by
  rw [readRowGroup, CompactCore.Io.V3.readRowGroup]
  refine Reader.total_bind_of (reads_readBytes _ _ _ _) fun _ _ _ => ?_
  refine Reader.total_bind_of (Reader.total_lift_of (total_failIf _ _).symm) fun _ _ _ => ?_
  refine Reader.total_bind_of (Checked.readUInt64_total (reads_readBytes _)) fun _ _ _ => ?_
  refine Reader.total_bind_of (Reader.total_lift_of (total_failIf _ _).symm) fun _ _ _ => ?_
  refine Reader.total_bind_of (Checked.readUInt64_total (reads_readBytes _)) fun _ _ _ => ?_
  refine Reader.total_bind_of (Reader.total_lift_of (total_failIf _ _).symm) fun _ _ _ => ?_
  refine Reader.total_bind_of (Checked.readUInt64_total (reads_readBytes _)) fun _ _ _ => ?_
  refine Reader.total_bind_of (Reader.total_lift_of rfl) fun rowCount _ _ => ?_
  refine Reader.total_bind_of (Checked.readUInt64_total (reads_readBytes _)) fun _ _ _ => ?_
  refine Reader.total_bind_of (Checked.readUInt32_total (reads_readBytes _))
    fun columnCount _ _ => ?_
  refine Reader.total_bind_of (Reader.total_lift_of (total_failIf _ _).symm) fun _ _ _ => ?_
  -- a 32-bit number of columns is small
  have hword := columnCount.toNat_lt
  rw [Reader.lift_bind_eq (withCapacity_of (by rw [sizeOfDecodedColumn, maxAllocation]; omega))]
  exact Reader.total_bind_of (readColumns_total hfit rowCount columns _) fun _ _ _ => rfl

/-- **The `CMP3` decoder does not panic.** -/
theorem decodeJsonl_total [Crc32Fast] [SerdeJson] {data : List UInt8} (hfit : Fits data)
    (schema : Schema) :
    decodeJsonl data schema = total (CompactCore.Io.V3.decodeJsonl data schema) := by
  rw [decodeJsonl, CompactCore.Io.V3.decodeJsonl_eq]
  refine total_bind_of rfl fun columns _ => ?_
  refine total_bind_of (Format.readHeader_total _ _ _ _) fun header hheader => ?_
  refine total_bind_of (total_failIf _ _).symm fun _ _ => ?_
  refine total_bind_of (rowGroupBody_total (Format.bodyOffset_le hheader)) fun body hbody => ?_
  have hfit' := CompactCore.Io.V3.fits_rowGroupBody hfit hbody
  refine total_bind_of (readRowGroup_total hfit' columns)
    fun ⟨⟨rowCount, decodedColumns⟩, cursor⟩ _ => ?_
  exact total_bind_of (total_failIf _ _).symm fun _ _ => rfl

theorem inspectColumn_total {data : List UInt8} (hfit : Fits data) (rowCount : UInt64) (c : ℕ) :
    inspectColumn rowCount data c =
      total (CompactCore.Io.V3.inspectColumn rowCount data c) := by
  rw [inspectColumn, CompactCore.Io.V3.inspectColumn]
  refine Reader.total_bind_of (Checked.readUInt32_total (reads_readBytes _)) fun _ _ _ => ?_
  refine Reader.total_bind_of (reads_readBytes _ _ _ _) fun bytes _ hbytes => ?_
  have hfit' : Fits bytes := hfit.of_at (readExact_at hbytes).1
  refine Reader.total_bind_of (Reader.total_lift_of (Format.V3.decodeColumnMetadata_total _))
    fun r _ hmetadata => ?_
  rcases r with ⟨metadata, consumed⟩
  have hle := Format.V3.nullCount_le hfit' (Reader.lift_ok.1 hmetadata).1
  refine Reader.total_bind_of (Reader.total_lift_of (total_failIf _ _).symm) fun _ _ _ => ?_
  refine Reader.total_bind_of (Reader.total_lift_of (total_failIf _ _).symm) fun _ _ _ => ?_
  refine Reader.total_bind_of (Reader.total_lift_of (Statistics.decode_total _)) fun _ _ _ => ?_
  refine Reader.total_bind_of (Reader.total_lift_of (validateStatistics_total hle)) fun _ _ _ => ?_
  refine Reader.total_bind_of (Reader.total_lift_of rfl) fun _ _ _ => ?_
  exact Reader.total_bind_of (reads_readBytes _ _ _ _) fun _ _ _ => rfl

theorem inspectRowGroup_total {data : List UInt8} (hfit : Fits data) :
    inspectRowGroup data 0 = total (CompactCore.Io.V3.inspectRowGroup data 0) := by
  rw [inspectRowGroup, CompactCore.Io.V3.inspectRowGroup]
  refine Reader.total_bind_of (reads_readBytes _ _ _ _) fun _ _ _ => ?_
  refine Reader.total_bind_of (Reader.total_lift_of (total_failIf _ _).symm) fun _ _ _ => ?_
  refine Reader.total_bind_of (Checked.readUInt64_total (reads_readBytes _)) fun _ _ _ => ?_
  refine Reader.total_bind_of (Checked.readUInt64_total (reads_readBytes _)) fun _ _ _ => ?_
  refine Reader.total_bind_of (Checked.readUInt64_total (reads_readBytes _)) fun rowCount _ _ => ?_
  refine Reader.total_bind_of (Checked.readUInt64_total (reads_readBytes _)) fun _ _ _ => ?_
  refine Reader.total_bind_of (Checked.readUInt32_total (reads_readBytes _))
    fun columnCount _ _ => ?_
  refine Reader.total_bind_of Reader.total_remaining fun remaining _ _ => ?_
  refine Reader.total_bind_of (Reader.total_lift_of (total_failIf _ _).symm) fun _ _ _ => ?_
  have hword := columnCount.toNat_lt
  rw [Reader.lift_bind_eq (withCapacity_of (by rw [sizeOfColumnInspect, maxAllocation]; omega))]
  exact Reader.total_bind_of
    (Reader.total_repeatRead_of (inspectColumn_total hfit rowCount) _ _) fun _ _ _ => rfl

/-- **The `CMP3` inspector does not panic.** -/
theorem inspectJsonl_total [Crc32Fast] {data : List UInt8} (hfit : Fits data) :
    inspectJsonl data = total (CompactCore.Io.V3.inspectJsonl data) := by
  rw [inspectJsonl, CompactCore.Io.V3.inspectJsonl_eq]
  refine total_bind_of (Format.readHeader_total _ _ _ _) fun header hheader => ?_
  refine total_bind_of (rowGroupBody_total (Format.bodyOffset_le hheader)) fun body hbody => ?_
  have hfit' := CompactCore.Io.V3.fits_rowGroupBody hfit hbody
  refine total_bind_of (inspectRowGroup_total hfit')
    fun ⟨⟨rowCount, rawSize, columns⟩, cursor⟩ _ => ?_
  exact total_bind_of (total_failIf _ _).symm fun _ _ => rfl

end CompactCore.Checked.Io.V3
