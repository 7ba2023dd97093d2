/-
**The `CMP4` readers as checked code.**

Offsets and lengths come from two places that nobody has to agree on: the footer and the column
records.  Every slice of the file goes through one function that checks its range; what is left are
the checksum at the end of a row group, the range of the footer, the counters of a scan, and a loop
that recovers row groups for as long as it finds them.

Main definitions:

* `CompactCore.Checked.Format.V4.decodeFooter`, `CompactCore.Checked.Io.V4.recoverRowGroup`,
  `CompactCore.Checked.Io.V4.verifyRowGroup` — reading a footer and a row group;
* `CompactCore.Checked.Io.V4.scanJsonl`, `CompactCore.Checked.Io.V4.inspectFooter`,
  `CompactCore.Checked.Io.V4.validateFile`, `CompactCore.Checked.Io.V4.recoverFilePrefix` — the
  readers.

Main results:

* `CompactCore.Checked.Io.V4.scanJsonl_total`, `CompactCore.Checked.Io.V4.validateFile_total`,
  `CompactCore.Checked.Io.V4.recoverFilePrefix_total` — **the readers do not panic**, and recovery
  ends within a round for every byte;
* `CompactCore.Checked.Io.V4.fileReaders_safe` — **no reader of the v0.3 formats panics**.
-/

import CompactCore.Checked.V3
import CompactCore.Io.V4.Scan

set_option relaxedAutoImplicit false
set_option autoImplicit false

/-! ### Footers -/

namespace CompactCore.Checked.Format.V4

open Wire Fault CompactError
open CompactCore.Format (FileHeader)
open CompactCore.Format.V4 (ColumnIndexEntry RowGroupIndexEntry FooterIndex FooterTrailer
  footerMagic footerTrailerLen minRowGroupEntryLen minColumnEntryLen validateFooterIndex)

/-- The bytes of a `ColumnIndexEntry`: a name, six words and a vector. -/
def sizeOfColumnIndexEntry : ℕ := sizeOfString + 6 * 8 + 3 * 8

/-- The bytes of a `RowGroupIndexEntry`: five words and a vector. -/
def sizeOfRowGroupIndexEntry : ℕ := 5 * 8 + 3 * 8

def decodeHeader (data : List UInt8) : Outcome FileHeader :=
  readHeader "cmp4" magicV4 versionV4 data

def readBytes (err : String) : ℕ → CheckedReader (List UInt8) :=
  Checked.readExact (invalidInput "cmp4 metadata length overflow") (invalidInput err)

def readTrailer : CheckedReader FooterTrailer := do
  let footerOffset ← Checked.readUInt64 (readBytes "cmp4 footer offset is truncated")
  let footerLen ← Checked.readUInt64 (readBytes "cmp4 footer length is truncated")
  let footerChecksum ← Checked.readUInt32 (readBytes "cmp4 footer checksum is truncated")
  let magic ← readBytes "cmp4 footer magic is truncated" footerMagic.length
  liftM (failIf (magic ≠ footerMagic) (error (invalidInput "invalid cmp4 footer magic")))
  return ⟨footerOffset, footerLen, footerChecksum⟩

/-- Decode the fixed-width trailer at the end of a file without parsing the footer body. -/
def decodeFooterTrailer (file : List UInt8) : Outcome FooterTrailer := do
  failIf (file.length < footerTrailerLen)
    (error (invalidInput "cmp4 footer trailer is truncated"))
  let trailerStart ← subUsize file.length footerTrailerLen
  let (trailer, _) ← readTrailer file trailerStart
  return trailer

def readColumnEntry : CheckedReader ColumnIndexEntry := do
  let nameLen ← Checked.readUInt16 (readBytes "cmp4 column name length is truncated")
  let nameBytes ← readBytes "cmp4 column name is truncated" nameLen.toNat
  let name ←
    liftM (okOr (error (invalidInput "cmp4 column name must be utf-8")) (fromUtf8 nameBytes))
  let metadataOffset ← Checked.readUInt64 (readBytes "cmp4 metadata offset is truncated")
  let metadataLen ← Checked.readUInt64 (readBytes "cmp4 metadata length is truncated")
  let payloadOffset ← Checked.readUInt64 (readBytes "cmp4 payload offset is truncated")
  let payloadLen ← Checked.readUInt64 (readBytes "cmp4 payload length is truncated")
  let valueCount ← Checked.readUInt64 (readBytes "cmp4 value count is truncated")
  let nullCount ← Checked.readUInt64 (readBytes "cmp4 null count is truncated")
  let statisticsLen ← Checked.readUInt32 (readBytes "cmp4 statistics length is truncated")
  let statisticsMetadata ←
    readBytes "cmp4 statistics metadata is truncated" statisticsLen.toNat
  return {
    name := name
    metadataOffset := metadataOffset
    metadataLen := metadataLen
    payloadOffset := payloadOffset
    payloadLen := payloadLen
    valueCount := valueCount
    nullCount := nullCount
    statisticsMetadata := statisticsMetadata }

def readRowGroupEntry : CheckedReader RowGroupIndexEntry := do
  let rowGroupIndex ← Checked.readUInt64 (readBytes "cmp4 row group index is truncated")
  let firstRowIndex ← Checked.readUInt64 (readBytes "cmp4 first row index is truncated")
  let rowCount ← Checked.readUInt64 (readBytes "cmp4 row count is truncated")
  let rowGroupOffset ← Checked.readUInt64 (readBytes "cmp4 row group offset is truncated")
  let rowGroupLen ← Checked.readUInt64 (readBytes "cmp4 row group length is truncated")
  let columnCount ← Checked.readUInt32 (readBytes "cmp4 column count is truncated")
  let remaining ← Reader.remaining
  liftM (failIf (maxCollectionEntries < columnCount.toNat ∨
      remaining / minColumnEntryLen < columnCount.toNat)
    (error (invalidInput "cmp4 column count exceeds footer bounds")))
  liftM (withCapacity sizeOfColumnIndexEntry columnCount.toNat : Outcome Unit)
  let columns ← Reader.repeatRead readColumnEntry columnCount.toNat
  return {
    rowGroupIndex := rowGroupIndex
    firstRowIndex := firstRowIndex
    rowCount := rowCount
    rowGroupOffset := rowGroupOffset
    rowGroupLen := rowGroupLen
    columns := columns }

def readFooterIndex : CheckedReader FooterIndex := do
  let totalRowCount ← Checked.readUInt64 (readBytes "cmp4 total row count is truncated")
  let rowGroupCount ← Checked.readUInt64 (readBytes "cmp4 row group count is truncated")
  let rowGroupCount ←
    liftM (total (tryUsize rowGroupCount "cmp4 row group count is too large"))
  let remaining ← Reader.remaining
  liftM (failIf (maxCollectionEntries < rowGroupCount ∨
      remaining / minRowGroupEntryLen < rowGroupCount)
    (error (invalidInput "cmp4 row group count exceeds footer bounds")))
  liftM (withCapacity sizeOfRowGroupIndexEntry rowGroupCount : Outcome Unit)
  let rowGroups ← Reader.repeatRead readRowGroupEntry rowGroupCount
  return ⟨totalRowCount, rowGroups⟩

/-- Decode the footer by reading only the fixed-width trailer first. -/
def decodeFooter [Crc32Fast] (file : List UInt8) : Outcome FooterIndex := do
  let trailer ← decodeFooterTrailer file
  let footerStart ← total (tryUsize trailer.footerOffset "cmp4 footer offset is too large")
  let footerLen ← total (tryUsize trailer.footerLen "cmp4 footer length is too large")
  let footerEnd ← okOr (error (invalidInput "cmp4 footer range overflow"))
    (usizeAdd footerStart footerLen)
  let trailerStart ← okOr (error (invalidInput "cmp4 footer trailer is truncated"))
    (usizeSub file.length footerTrailerLen)
  failIf (footerEnd ≠ trailerStart) (error (invalidInput "cmp4 footer range is invalid"))
  let footer ← slice file footerStart footerEnd
  failIf (checksum32 footer ≠ trailer.footerChecksum)
    (error (invalidInput "cmp4 footer checksum mismatch"))
  let (index, cursor) ← readFooterIndex footer 0
  failIf (cursor ≠ footer.length) (error (invalidInput "cmp4 footer has trailing bytes"))
  total (validateFooterIndex index (some trailer.footerOffset))
  return index

theorem reads_readBytes (err : String) : Checked.Reads (readBytes err)
    (invalidInput "cmp4 metadata length overflow") (invalidInput err) := Checked.reads_readExact

theorem decodeFooterTrailer_total (file : List UInt8) : decodeFooterTrailer file =
    total (CompactCore.Format.V4.decodeFooterTrailer file) := by
  have hread : ∀ c, readTrailer file c =
      total (CompactCore.Format.V4.readTrailer file c) := by
    intro c
    rw [readTrailer, CompactCore.Format.V4.readTrailer]
    refine Reader.total_bind_of (Checked.readUInt64_total (reads_readBytes _)) fun _ _ _ => ?_
    refine Reader.total_bind_of (Checked.readUInt64_total (reads_readBytes _)) fun _ _ _ => ?_
    refine Reader.total_bind_of (Checked.readUInt32_total (reads_readBytes _)) fun _ _ _ => ?_
    refine Reader.total_bind_of (reads_readBytes _ _ _ _) fun _ _ _ => ?_
    exact Reader.total_bind_of (Reader.total_lift_of (total_failIf _ _).symm) fun _ _ _ => rfl
  rw [decodeFooterTrailer, CompactCore.Format.V4.decodeFooterTrailer]
  refine total_bind_of (total_failIf _ _).symm fun _ hlen => ?_
  rw [ok_bind_eq (subUsize_of (not_lt.1 (failIf_ok.1 hlen)))]
  exact total_bind_of (hread _) fun _ _ => rfl

theorem readColumnEntry_total (data : List UInt8) (c : ℕ) : readColumnEntry data c =
    total (CompactCore.Format.V4.readColumnEntry data c) := by
  rw [readColumnEntry, CompactCore.Format.V4.readColumnEntry]
  refine Reader.total_bind_of (Checked.readUInt16_total (reads_readBytes _)) fun _ _ _ => ?_
  refine Reader.total_bind_of (reads_readBytes _ _ _ _) fun _ _ _ => ?_
  refine Reader.total_bind_of (Reader.total_lift_of (total_okOr _ _).symm) fun _ _ _ => ?_
  refine Reader.total_bind_of (Checked.readUInt64_total (reads_readBytes _)) fun _ _ _ => ?_
  refine Reader.total_bind_of (Checked.readUInt64_total (reads_readBytes _)) fun _ _ _ => ?_
  refine Reader.total_bind_of (Checked.readUInt64_total (reads_readBytes _)) fun _ _ _ => ?_
  refine Reader.total_bind_of (Checked.readUInt64_total (reads_readBytes _)) fun _ _ _ => ?_
  refine Reader.total_bind_of (Checked.readUInt64_total (reads_readBytes _)) fun _ _ _ => ?_
  refine Reader.total_bind_of (Checked.readUInt64_total (reads_readBytes _)) fun _ _ _ => ?_
  refine Reader.total_bind_of (Checked.readUInt32_total (reads_readBytes _)) fun _ _ _ => ?_
  exact Reader.total_bind_of (reads_readBytes _ _ _ _) fun _ _ _ => rfl

/-- A number of entries that passed its limit, as bytes of a vector. -/
theorem room_of_limit {size count : ℕ} {bad : Prop} (hsize : size ≤ 2 ^ 32)
    (h : ¬(maxCollectionEntries < count ∨ bad)) : size * count ≤ maxAllocation := by
  have hcount : count ≤ 1000000 := not_lt.1 (not_or.1 h).1
  have hle := Nat.mul_le_mul hsize hcount
  rw [maxAllocation]
  omega

theorem readRowGroupEntry_total (data : List UInt8) (c : ℕ) : readRowGroupEntry data c =
    total (CompactCore.Format.V4.readRowGroupEntry data c) := by
  rw [readRowGroupEntry, CompactCore.Format.V4.readRowGroupEntry]
  refine Reader.total_bind_of (Checked.readUInt64_total (reads_readBytes _)) fun _ _ _ => ?_
  refine Reader.total_bind_of (Checked.readUInt64_total (reads_readBytes _)) fun _ _ _ => ?_
  refine Reader.total_bind_of (Checked.readUInt64_total (reads_readBytes _)) fun _ _ _ => ?_
  refine Reader.total_bind_of (Checked.readUInt64_total (reads_readBytes _)) fun _ _ _ => ?_
  refine Reader.total_bind_of (Checked.readUInt64_total (reads_readBytes _)) fun _ _ _ => ?_
  refine Reader.total_bind_of (Checked.readUInt32_total (reads_readBytes _))
    fun columnCount _ _ => ?_
  refine Reader.total_bind_of Reader.total_remaining fun _ _ _ => ?_
  refine Reader.total_bind_of (Reader.total_lift_of (total_failIf _ _).symm) fun _ _ hmax => ?_
  have hroom : sizeOfColumnIndexEntry * columnCount.toNat ≤ maxAllocation :=
    room_of_limit (by decide) (failIf_ok.1 (Reader.lift_ok.1 hmax).1)
  rw [Reader.lift_bind_eq (withCapacity_of hroom)]
  exact Reader.total_bind_of (Reader.total_repeatRead_of (readColumnEntry_total data) _ _)
    fun _ _ _ => rfl

theorem readFooterIndex_total (data : List UInt8) : readFooterIndex data 0 =
    total (CompactCore.Format.V4.readFooterIndex data 0) := by
  rw [readFooterIndex, CompactCore.Format.V4.readFooterIndex]
  refine Reader.total_bind_of (Checked.readUInt64_total (reads_readBytes _)) fun _ _ _ => ?_
  refine Reader.total_bind_of (Checked.readUInt64_total (reads_readBytes _)) fun _ _ _ => ?_
  refine Reader.total_bind_of (Reader.total_lift_of rfl) fun rowGroupCount _ _ => ?_
  refine Reader.total_bind_of Reader.total_remaining fun _ _ _ => ?_
  refine Reader.total_bind_of (Reader.total_lift_of (total_failIf _ _).symm) fun _ _ hmax => ?_
  have hroom : sizeOfRowGroupIndexEntry * rowGroupCount ≤ maxAllocation :=
    room_of_limit (by decide) (failIf_ok.1 (Reader.lift_ok.1 hmax).1)
  rw [Reader.lift_bind_eq (withCapacity_of hroom)]
  exact Reader.total_bind_of (Reader.total_repeatRead_of (readRowGroupEntry_total data) _ _)
    fun _ _ _ => rfl

/-- The range of the footer ends where the trailer starts, so it lies inside the file. -/
theorem decodeFooter_total [Crc32Fast] (file : List UInt8) : decodeFooter file =
    total (CompactCore.Format.V4.decodeFooter file) := by
  rw [decodeFooter, CompactCore.Format.V4.decodeFooter]
  refine total_bind_of (decodeFooterTrailer_total file) fun trailer htrailer => ?_
  have hlen : footerTrailerLen ≤ file.length := by
    simp only [CompactCore.Format.V4.decodeFooterTrailer, bind_ok, failIf_ok, not_lt] at htrailer
    obtain ⟨_, hlen, -⟩ := htrailer
    exact hlen
  refine total_bind_of rfl fun footerStart _ => ?_
  refine total_bind_of rfl fun footerLen _ => ?_
  refine total_bind_of (total_okOr _ _).symm fun footerEnd hend => ?_
  have hend := (usizeAdd_eq_some.1 (okOr_ok.1 hend)).2
  have hstart : usizeSub file.length footerTrailerLen = some (file.length - footerTrailerLen) :=
    if_pos hlen
  rw [ok_bind_eq (okOr_ok.2 hstart), ok_bind_eq (failIf_of_not (not_lt.2 hlen))]
  refine total_bind_of (total_failIf _ _).symm fun _ hrange => ?_
  have hrange : footerEnd = file.length - footerTrailerLen := not_not.1 (failIf_ok.1 hrange)
  rw [ok_bind_eq (slice_of (by omega) (by omega)), ← hend, Nat.add_sub_cancel_left]
  refine total_bind_of (total_failIf _ _).symm fun _ _ => ?_
  refine total_bind_of (readFooterIndex_total _) fun r _ => ?_
  rcases r with ⟨index, cursor⟩
  refine total_bind_of (total_failIf _ _).symm fun _ _ => ?_
  exact total_bind_of rfl fun _ _ => rfl

end CompactCore.Checked.Format.V4

/-! ### Where a row group ends -/

namespace CompactCore.Io.V4

open Wire CompactError Format.V4

/-- What `readRowGroup` reads before the first column: how many rows and how many columns there
are. -/
def readRowGroupHead (expectedIndex expectedFirstRow : UInt64) :
    Reader CompactError (UInt64 × ℕ) := do
  let magic ← readBytes "cmp4 row group magic is truncated" rowGroupMagic.length
  failIf (magic ≠ rowGroupMagic) (invalidInput "invalid cmp4 row group magic")
  let rowGroupIndex ← readUInt64 (readBytes "cmp4 row group index is truncated")
  failIf (rowGroupIndex ≠ expectedIndex) (invalidInput "cmp4 row group index is not sequential")
  let firstRowIndex ← readUInt64 (readBytes "cmp4 first row index is truncated")
  failIf (firstRowIndex ≠ expectedFirstRow)
    (invalidInput "cmp4 first row index is not sequential")
  let rowCount ← readUInt64 (readBytes "cmp4 row count is truncated")
  failIf (rowCount = 0) (invalidInput "cmp4 row group must contain rows")
  let _ ← readUInt64 (readBytes "cmp4 raw jsonl size is truncated")
  let columnCount ← readUInt32 (readBytes "cmp4 column count is truncated")
  let columnCount := columnCount.toNat
  let remaining ← Reader.remaining
  failIf (maxCollectionEntries < columnCount ∨ remaining / 4 < columnCount)
    (invalidInput "cmp4 column count exceeds row group bounds")
  return (rowCount, columnCount)

/-- What `readRowGroup` does behind the header. -/
def finishRowGroup [Crc32Fast] (start : ℕ) (expectedIndex expectedFirstRow : UInt64)
    (head : UInt64 × ℕ) : Reader CompactError RowGroupIndexEntry := do
  let columns ← recoverColumns head.1 head.2 []
  let checksumOffset ← Reader.cursor
  let storedChecksum ← readUInt32 (readBytes "cmp4 row group checksum is truncated")
  let data ← Reader.input
  failIf (verify ((data.drop start).take (checksumOffset - start)) storedChecksum = false)
    (invalidInput "cmp4 row group checksum mismatch")
  let rowGroupOffset ← tryU64 start "cmp4 row group offset is too large"
  let cursor ← Reader.cursor
  let rowGroupLen ← tryU64 (cursor - start) "cmp4 row group length is too large"
  return {
    rowGroupIndex := expectedIndex
    firstRowIndex := expectedFirstRow
    rowCount := head.1
    rowGroupOffset := rowGroupOffset
    rowGroupLen := rowGroupLen
    columns := columns }

theorem readRowGroup_eq [Crc32Fast] (start : ℕ) (expectedIndex expectedFirstRow : UInt64) :
    readRowGroup start expectedIndex expectedFirstRow =
      readRowGroupHead expectedIndex expectedFirstRow >>=
        finishRowGroup start expectedIndex expectedFirstRow := by
  simp only [readRowGroup, readRowGroupHead, finishRowGroup, bind_assoc, pure_bind]

theorem readRowGroupHead_forward (expectedIndex expectedFirstRow : UInt64) :
    (readRowGroupHead expectedIndex expectedFirstRow).Forward :=
  (readBytes_forward _ _).bind fun _ => .bind (.lift _) fun _ =>
    .bind (.readUInt64 (readBytes_forward _)) fun _ => .bind (.lift _) fun _ =>
    .bind (.readUInt64 (readBytes_forward _)) fun _ => .bind (.lift _) fun _ =>
    .bind (.readUInt64 (readBytes_forward _)) fun _ => .bind (.lift _) fun _ =>
    .bind (.readUInt64 (readBytes_forward _)) fun _ =>
    .bind (.readUInt32 (readBytes_forward _)) fun _ => .bind .remaining fun _ =>
    .bind (.lift _) fun _ => .pure _

/-- The number of columns that a header declares passed its limit. -/
theorem columnCount_le {data : List UInt8} {c c' : ℕ}
    {expectedIndex expectedFirstRow : UInt64} {head : UInt64 × ℕ}
    (h : readRowGroupHead expectedIndex expectedFirstRow data c = .ok (head, c')) :
    head.2 ≤ maxCollectionEntries := by
  simp only [readRowGroupHead, Reader.bind_ok, Reader.lift_ok, failIf_ok, not_or, not_lt,
    Reader.pure_ok] at h
  obtain ⟨_, _, -, _, _, -, _, _, -, _, _, -, _, _, -, _, _, -, _, _, -, _, _, -, _, _, -, _, _, -,
    _, _, -, _, _, ⟨⟨hle, -⟩, -⟩, rfl, -⟩ := h
  exact hle

end CompactCore.Io.V4

/-! ### Row groups -/

namespace CompactCore.Checked.Io.V4

open Wire Fault CompactError
open CompactCore.Format.V3 (ColumnChunkMetadata)
open CompactCore.Format.V4 (ColumnIndexEntry RowGroupIndexEntry FooterIndex)
open CompactCore.Format.V4 (validateFooterIndex)
open CompactCore.Io.V4 (rowGroupMagic checksumLen rowGroupHeaderLen checkedSlice)

def readBytes (err : String) : ℕ → CheckedReader (List UInt8) :=
  Checked.readExact (invalidInput "cmp4 row group length overflow") (invalidInput err)

/-- Recover the entry of one column, given the names before it. -/
def recoverColumn (rowCount : UInt64) (names : List String) : CheckedReader ColumnIndexEntry := do
  let metadataLen ← Checked.readUInt32 (readBytes "cmp4 column metadata length is truncated")
  let metadataLen := metadataLen.toNat
  let cursor ← Reader.cursor
  let metadataOffset ← liftM (total (tryU64 cursor "cmp4 metadata offset is too large"))
  let metadataBytes ← readBytes "cmp4 column metadata is truncated" metadataLen
  let (metadata, consumed) ← liftM (Format.V3.decodeColumnMetadata metadataBytes)
  liftM (failIf (consumed ≠ metadataBytes.length)
    (error (invalidInput "cmp4 column metadata has trailing bytes")))
  liftM (failIf (metadata.valueCount ≠ rowCount)
    (error (invalidInput "cmp4 column value count does not match row group")))
  liftM (failIf (metadata.name ∈ names)
    (error (invalidInput "cmp4 duplicate column in row group")))
  let _ ← liftM (Statistics.decode metadata.statisticsMetadata)
  let cursor ← Reader.cursor
  let payloadOffset ← liftM (total (tryU64 cursor "cmp4 payload offset is too large"))
  let payloadLen ←
    liftM (total (tryUsize metadata.compressedSize "cmp4 column payload is too large"))
  let _ ← readBytes "cmp4 column payload is truncated" payloadLen
  let metadataLen ← liftM (total (tryU64 metadataLen "cmp4 metadata length is too large"))
  return {
    name := metadata.name
    metadataOffset := metadataOffset
    metadataLen := metadataLen
    payloadOffset := payloadOffset
    payloadLen := metadata.compressedSize
    valueCount := metadata.valueCount
    nullCount := metadata.nullCount
    statisticsMetadata := metadata.statisticsMetadata }

def recoverColumns (rowCount : UInt64) : ℕ → List String →
    CheckedReader (List ColumnIndexEntry)
  | 0, _ => pure []
  | count + 1, names => do
      let column ← recoverColumn rowCount names
      let columns ← recoverColumns rowCount count (column.name :: names)
      return column :: columns

/-- The header of a row group: how many rows and how many columns it has. -/
def readRowGroupHead (expectedIndex expectedFirstRow : UInt64) : CheckedReader (UInt64 × ℕ) := do
  let magic ← readBytes "cmp4 row group magic is truncated" rowGroupMagic.length
  liftM (failIf (magic ≠ rowGroupMagic) (error (invalidInput "invalid cmp4 row group magic")))
  let rowGroupIndex ← Checked.readUInt64 (readBytes "cmp4 row group index is truncated")
  liftM (failIf (rowGroupIndex ≠ expectedIndex)
    (error (invalidInput "cmp4 row group index is not sequential")))
  let firstRowIndex ← Checked.readUInt64 (readBytes "cmp4 first row index is truncated")
  liftM (failIf (firstRowIndex ≠ expectedFirstRow)
    (error (invalidInput "cmp4 first row index is not sequential")))
  let rowCount ← Checked.readUInt64 (readBytes "cmp4 row count is truncated")
  liftM (failIf (rowCount = 0) (error (invalidInput "cmp4 row group must contain rows")))
  let _ ← Checked.readUInt64 (readBytes "cmp4 raw jsonl size is truncated")
  let columnCount ← Checked.readUInt32 (readBytes "cmp4 column count is truncated")
  let columnCount := columnCount.toNat
  let remaining ← Reader.remaining
  liftM (failIf (maxCollectionEntries < columnCount ∨ remaining / 4 < columnCount)
    (error (invalidInput "cmp4 column count exceeds row group bounds")))
  return (rowCount, columnCount)

/-- The row group at the cursor, which started at `start`. -/
def readRowGroup [Crc32Fast] (start : ℕ) (expectedIndex expectedFirstRow : UInt64) :
    CheckedReader RowGroupIndexEntry := do
  let (rowCount, columnCount) ← readRowGroupHead expectedIndex expectedFirstRow
  liftM (withCapacity Format.V4.sizeOfColumnIndexEntry columnCount : Outcome Unit)
  let columns ← recoverColumns rowCount columnCount []
  let checksumOffset ← Reader.cursor
  let storedChecksum ← Checked.readUInt32 (readBytes "cmp4 row group checksum is truncated")
  let data ← Reader.input
  let covered ← liftM (slice data start checksumOffset : Outcome (List UInt8))
  liftM (failIf (verify covered storedChecksum = false)
    (error (invalidInput "cmp4 row group checksum mismatch")))
  let rowGroupOffset ← liftM (total (tryU64 start "cmp4 row group offset is too large"))
  let cursor ← Reader.cursor
  let rowGroupLen ← liftM (subUsize cursor start : Outcome ℕ)
  let rowGroupLen ← liftM (total (tryU64 rowGroupLen "cmp4 row group length is too large"))
  return {
    rowGroupIndex := expectedIndex
    firstRowIndex := expectedFirstRow
    rowCount := rowCount
    rowGroupOffset := rowGroupOffset
    rowGroupLen := rowGroupLen
    columns := columns }

def recoverRowGroup [Crc32Fast] (data : List UInt8) (start : ℕ)
    (expectedIndex expectedFirstRow : UInt64) : Outcome (RowGroupIndexEntry × ℕ) :=
  readRowGroup start expectedIndex expectedFirstRow data start

/-- The header of a row group agrees with its footer entry. -/
def checkRowGroupHeader (rowGroup : RowGroupIndexEntry) : CheckedReader Unit := do
  let magic ← readBytes "cmp4 row group magic is truncated" rowGroupMagic.length
  liftM (failIf (magic ≠ rowGroupMagic) (error (invalidInput "invalid cmp4 row group magic")))
  let rowGroupIndex ← Checked.readUInt64 (readBytes "cmp4 row group index is truncated")
  liftM (failIf (rowGroupIndex ≠ rowGroup.rowGroupIndex)
    (error (invalidInput "cmp4 row group index does not match footer")))
  let firstRowIndex ← Checked.readUInt64 (readBytes "cmp4 first row index is truncated")
  liftM (failIf (firstRowIndex ≠ rowGroup.firstRowIndex)
    (error (invalidInput "cmp4 first row index does not match footer")))
  let rowCount ← Checked.readUInt64 (readBytes "cmp4 row count is truncated")
  liftM (failIf (rowCount ≠ rowGroup.rowCount)
    (error (invalidInput "cmp4 row count does not match footer")))
  let _ ← Checked.readUInt64 (readBytes "cmp4 raw jsonl size is truncated")
  let columnCount ← Checked.readUInt32 (readBytes "cmp4 column count is truncated")
  liftM (failIf (columnCount.toNat ≠ rowGroup.columns.length)
    (error (invalidInput "cmp4 column count does not match footer")))

/-- The checksum of a row group is right, if it is asked for. -/
def verifyChecksum [Crc32Fast] (data : List UInt8) (rowGroup : RowGroupIndexEntry)
    (verifyFullChecksum : Bool) : Outcome Unit :=
  if verifyFullChecksum then do
    let bytes ← total (checkedSlice data rowGroup.rowGroupOffset rowGroup.rowGroupLen
      "cmp4 row group is truncated")
    let checksumOffset ← subUsize bytes.length checksumLen
    let sumBytes ← sliceFrom bytes checksumOffset
    require (sumBytes.length = 4)
    let covered ← sliceTo bytes checksumOffset
    failIf (verify covered (u32OfLe sumBytes) = false)
      (error (invalidInput "cmp4 row group checksum mismatch"))
  else .ok ()

def verifyRowGroup [Crc32Fast] (data : List UInt8) (rowGroup : RowGroupIndexEntry)
    (verifyFullChecksum : Bool) : Outcome Unit := do
  require (rowGroupHeaderLen + checksumLen < 2 ^ 64)
  failIf (rowGroup.rowGroupLen.toNat < rowGroupHeaderLen + checksumLen)
    (error (invalidInput "cmp4 row group is truncated"))
  let header ← total (checkedSlice data rowGroup.rowGroupOffset (UInt64.ofNat rowGroupHeaderLen)
    "cmp4 row group header is truncated")
  verifyChecksum data rowGroup verifyFullChecksum
  let _ ← checkRowGroupHeader rowGroup header 0

theorem reads_readBytes (err : String) : Checked.Reads (readBytes err)
    (invalidInput "cmp4 row group length overflow") (invalidInput err) := Checked.reads_readExact

theorem recoverColumn_total (data : List UInt8) (rowCount : UInt64) (names : List String)
    (c : ℕ) : recoverColumn rowCount names data c =
      total (CompactCore.Io.V4.recoverColumn rowCount names data c) := by
  rw [recoverColumn, CompactCore.Io.V4.recoverColumn]
  refine Reader.total_bind_of (Checked.readUInt32_total (reads_readBytes _)) fun _ _ _ => ?_
  refine Reader.total_bind_of Reader.total_cursor fun _ _ _ => ?_
  refine Reader.total_bind_of (Reader.total_lift_of rfl) fun _ _ _ => ?_
  refine Reader.total_bind_of (reads_readBytes _ _ _ _) fun _ _ _ => ?_
  refine Reader.total_bind_of (Reader.total_lift_of (Format.V3.decodeColumnMetadata_total _))
    fun r _ _ => ?_
  rcases r with ⟨metadata, consumed⟩
  refine Reader.total_bind_of (Reader.total_lift_of (total_failIf _ _).symm) fun _ _ _ => ?_
  refine Reader.total_bind_of (Reader.total_lift_of (total_failIf _ _).symm) fun _ _ _ => ?_
  refine Reader.total_bind_of (Reader.total_lift_of (total_failIf _ _).symm) fun _ _ _ => ?_
  refine Reader.total_bind_of (Reader.total_lift_of (Statistics.decode_total _)) fun _ _ _ => ?_
  refine Reader.total_bind_of Reader.total_cursor fun _ _ _ => ?_
  refine Reader.total_bind_of (Reader.total_lift_of rfl) fun _ _ _ => ?_
  refine Reader.total_bind_of (Reader.total_lift_of rfl) fun _ _ _ => ?_
  refine Reader.total_bind_of (reads_readBytes _ _ _ _) fun _ _ _ => ?_
  exact Reader.total_bind_of (Reader.total_lift_of rfl) fun _ _ _ => rfl

theorem recoverColumns_total (data : List UInt8) (rowCount : UInt64) (count : ℕ)
    (names : List String) (c : ℕ) : recoverColumns rowCount count names data c =
      total (CompactCore.Io.V4.recoverColumns rowCount count names data c) := by
  induction count generalizing names c with
  | zero => rfl
  | succ count ih =>
      rw [recoverColumns, CompactCore.Io.V4.recoverColumns]
      refine Reader.total_bind_of (recoverColumn_total data rowCount names c) fun _ _ _ => ?_
      exact Reader.total_bind_of (ih _ _) fun _ _ _ => rfl

theorem readRowGroupHead_total (data : List UInt8) (c : ℕ)
    (expectedIndex expectedFirstRow : UInt64) :
    readRowGroupHead expectedIndex expectedFirstRow data c =
      total (CompactCore.Io.V4.readRowGroupHead expectedIndex expectedFirstRow data c) := by
  rw [readRowGroupHead, CompactCore.Io.V4.readRowGroupHead]
  refine Reader.total_bind_of (reads_readBytes _ _ _ _) fun _ _ _ => ?_
  refine Reader.total_bind_of (Reader.total_lift_of (total_failIf _ _).symm) fun _ _ _ => ?_
  refine Reader.total_bind_of (Checked.readUInt64_total (reads_readBytes _)) fun _ _ _ => ?_
  refine Reader.total_bind_of (Reader.total_lift_of (total_failIf _ _).symm) fun _ _ _ => ?_
  refine Reader.total_bind_of (Checked.readUInt64_total (reads_readBytes _)) fun _ _ _ => ?_
  refine Reader.total_bind_of (Reader.total_lift_of (total_failIf _ _).symm) fun _ _ _ => ?_
  refine Reader.total_bind_of (Checked.readUInt64_total (reads_readBytes _)) fun _ _ _ => ?_
  refine Reader.total_bind_of (Reader.total_lift_of (total_failIf _ _).symm) fun _ _ _ => ?_
  refine Reader.total_bind_of (Checked.readUInt64_total (reads_readBytes _)) fun _ _ _ => ?_
  refine Reader.total_bind_of (Checked.readUInt32_total (reads_readBytes _)) fun _ _ _ => ?_
  refine Reader.total_bind_of Reader.total_remaining fun _ _ _ => ?_
  exact Reader.total_bind_of (Reader.total_lift_of (total_failIf _ _).symm) fun _ _ _ => rfl

/-- The reader only goes forward, so a row group ends behind its start. -/
theorem recoverRowGroup_total [Crc32Fast] {data : List UInt8} (hfit : Fits data) (start : ℕ)
    (expectedIndex expectedFirstRow : UInt64) :
    recoverRowGroup data start expectedIndex expectedFirstRow =
      total (CompactCore.Io.V4.recoverRowGroup data start expectedIndex expectedFirstRow) := by
  rw [recoverRowGroup, readRowGroup, CompactCore.Io.V4.recoverRowGroup,
    CompactCore.Io.V4.readRowGroup_eq]
  refine Reader.total_bind_of (readRowGroupHead_total data start _ _) fun r c₁ hhead => ?_
  rcases r with ⟨rowCount, columnCount⟩
  have hle₁ := CompactCore.Io.V4.readRowGroupHead_forward _ _ _ _ _ _ hhead
  have hroom : Format.V4.sizeOfColumnIndexEntry * columnCount ≤ maxAllocation :=
    have hcount := not_lt.2 (CompactCore.Io.V4.columnCount_le hhead)
    Format.V4.room_of_limit (by decide) (not_or.2 ⟨hcount, not_false⟩)
  rw [CompactCore.Io.V4.finishRowGroup]
  dsimp only
  rw [Reader.lift_bind_eq (withCapacity_of hroom)]
  refine Reader.total_bind_of (recoverColumns_total data rowCount columnCount [] c₁)
    fun columns c₂ hcolumns => ?_
  have hle₂ := CompactCore.Io.V4.recoverColumns_forward _ _ _ _ _ _ _ hcolumns
  refine Reader.total_bind_of Reader.total_cursor fun checksumOffset c₃ hcursor => ?_
  obtain ⟨rfl, rfl⟩ := Reader.cursor_ok.1 hcursor
  refine Reader.total_bind_of (Checked.readUInt32_total (reads_readBytes _))
    fun storedChecksum c₄ hsum => ?_
  obtain ⟨hat, rfl⟩ := (readUInt32_ok hfit).1 hsum
  have hend := hat.le
  rw [length_le32] at hend
  rw [Reader.bind_of_ok (Reader.input_ok.2 ⟨rfl, rfl⟩),
    Reader.bind_of_ok (Reader.input_ok.2 ⟨rfl, rfl⟩),
    Reader.lift_bind_eq (slice_of (by omega) (by omega))]
  refine Reader.total_bind_of (Reader.total_lift_of (total_failIf _ _).symm) fun _ c₅ hsame => ?_
  obtain ⟨-, rfl⟩ := Reader.lift_ok.1 hsame
  refine Reader.total_bind_of (Reader.total_lift_of rfl) fun _ c₆ hsame => ?_
  obtain ⟨-, rfl⟩ := Reader.lift_ok.1 hsame
  refine Reader.total_bind_of Reader.total_cursor fun cursor c₇ hcursor => ?_
  obtain ⟨rfl, rfl⟩ := Reader.cursor_ok.1 hcursor
  rw [Reader.lift_bind_eq (subUsize_of (by omega))]
  exact Reader.total_bind_of (Reader.total_lift_of rfl) fun _ _ _ => rfl

theorem checkRowGroupHeader_total (rowGroup : RowGroupIndexEntry) (header : List UInt8) :
    checkRowGroupHeader rowGroup header 0 =
      total (CompactCore.Io.V4.checkRowGroupHeader rowGroup header 0) := by
  rw [checkRowGroupHeader, CompactCore.Io.V4.checkRowGroupHeader]
  refine Reader.total_bind_of (reads_readBytes _ _ _ _) fun _ _ _ => ?_
  refine Reader.total_bind_of (Reader.total_lift_of (total_failIf _ _).symm) fun _ _ _ => ?_
  refine Reader.total_bind_of (Checked.readUInt64_total (reads_readBytes _)) fun _ _ _ => ?_
  refine Reader.total_bind_of (Reader.total_lift_of (total_failIf _ _).symm) fun _ _ _ => ?_
  refine Reader.total_bind_of (Checked.readUInt64_total (reads_readBytes _)) fun _ _ _ => ?_
  refine Reader.total_bind_of (Reader.total_lift_of (total_failIf _ _).symm) fun _ _ _ => ?_
  refine Reader.total_bind_of (Checked.readUInt64_total (reads_readBytes _)) fun _ _ _ => ?_
  refine Reader.total_bind_of (Reader.total_lift_of (total_failIf _ _).symm) fun _ _ _ => ?_
  refine Reader.total_bind_of (Checked.readUInt64_total (reads_readBytes _)) fun _ _ _ => ?_
  refine Reader.total_bind_of (Checked.readUInt32_total (reads_readBytes _)) fun _ _ _ => ?_
  exact Reader.total_lift_of (total_failIf _ _).symm

/-- A row group that is long enough for its header and its checksum has a checksum. -/
theorem verifyChecksum_total [Crc32Fast] {data : List UInt8} {rowGroup : RowGroupIndexEntry}
    (hfit : Fits data) (hlen : checksumLen ≤ rowGroup.rowGroupLen.toNat)
    (verifyFullChecksum : Bool) : verifyChecksum data rowGroup verifyFullChecksum =
      total (CompactCore.Io.V4.verifyChecksum data rowGroup verifyFullChecksum) := by
  unfold verifyChecksum CompactCore.Io.V4.verifyChecksum
  split
  · refine total_bind_of rfl fun bytes hbytes => ?_
    rw [← ((CompactCore.Io.V4.checkedSlice_ok hfit).1 hbytes).2] at hlen
    have hsum : (bytes.drop (bytes.length - checksumLen)).length = 4 := by
      rw [List.length_drop, Nat.sub_sub_self hlen]
      rfl
    rw [ok_bind_eq (subUsize_of hlen), ok_bind_eq (sliceFrom_of (Nat.sub_le ..)),
      require_bind hsum, ok_bind_eq (sliceTo_of (Nat.sub_le ..))]
    exact (total_failIf _ _).symm
  · rfl

theorem verifyRowGroup_total [Crc32Fast] {data : List UInt8} (hfit : Fits data)
    (rowGroup : RowGroupIndexEntry) (verifyFullChecksum : Bool) :
    verifyRowGroup data rowGroup verifyFullChecksum =
      total (CompactCore.Io.V4.verifyRowGroup data rowGroup verifyFullChecksum) := by
  rw [verifyRowGroup, CompactCore.Io.V4.verifyRowGroup, require_bind (by decide)]
  refine total_bind_of (total_failIf _ _).symm fun _ hlen => ?_
  have hlen := not_lt.1 (failIf_ok.1 hlen)
  refine total_bind_of rfl fun header _ => ?_
  refine total_bind_of (verifyChecksum_total hfit (by omega) _) fun _ _ => ?_
  exact total_bind_of (checkRowGroupHeader_total rowGroup header) fun _ _ => rfl

end CompactCore.Checked.Io.V4

/-! ### Validating and recovering -/

namespace CompactCore.Checked.Io.V4

open Wire Fault CompactError
open CompactCore.Format.V4 (RowGroupIndexEntry FooterIndex)
open CompactCore.Io.V4 (rowGroupMagic FileRecovery RecoveryState recoverLoop)

variable [Crc32Fast]

/-- Read only footer metadata. -/
def inspectFooter (data : List UInt8) : Outcome FooterIndex := do
  let _ ← Format.V4.decodeHeader data
  Format.V4.decodeFooter data

/-- The loop over the row groups, which must cover the body without gaps. -/
def validateRowGroups (data : List UInt8) : UInt64 → List RowGroupIndexEntry → Outcome UInt64
  | expectedOffset, [] => .ok expectedOffset
  | expectedOffset, rowGroup :: rowGroups => do
      failIf (rowGroup.rowGroupOffset ≠ expectedOffset)
        (error (invalidInput "cmp4 row groups must be physically contiguous"))
      verifyRowGroup data rowGroup true
      let expectedOffset ← okOr (error (invalidInput "cmp4 row group range overflow"))
        (checkedAdd expectedOffset rowGroup.rowGroupLen)
      validateRowGroups data expectedOffset rowGroups

/-- Validate the complete schema-independent storage envelope. -/
def validateFile (data : List UInt8) : Outcome FooterIndex := do
  let header ← Format.V4.decodeHeader data
  failIf (header.payload ≠ []) (error (unsupported "cmp4 header payload"))
  let trailer ← Format.V4.decodeFooterTrailer data
  let footer ← Format.V4.decodeFooter data
  let expectedOffset ← total (tryU64 header.bodyOffset "cmp4 header offset is too large")
  let expectedOffset ← validateRowGroups data expectedOffset footer.rowGroups
  failIf (expectedOffset ≠ trailer.footerOffset)
    (error (invalidInput "cmp4 body does not end at footer"))
  return footer

/-- One round of the recovery loop. -/
def recoverStep (data : List UInt8) (s : RecoveryState) : Outcome (Option RecoveryState) :=
  if (data.drop s.cursor).take rowGroupMagic.length = rowGroupMagic then do
    let rowGroupIndex ← total (tryU64 s.rowGroups.length "cmp4 row group count is too large")
    match ← attempt (recoverRowGroup data s.cursor rowGroupIndex s.expectedFirstRow) with
    | none => return none
    | some (rowGroup, nextCursor) =>
        let expectedFirstRow ← okOr (error (invalidInput "cmp4 total row count overflow"))
          (checkedAdd s.expectedFirstRow rowGroup.rowCount)
        return some ⟨nextCursor, s.rowGroups ++ [rowGroup], expectedFirstRow⟩
  else .ok none

/-- Recover a contiguous row-group prefix, in a round for every byte of the file. -/
def recoverFilePrefix (data : List UInt8) : Outcome FileRecovery := do
  let header ← Format.V4.decodeHeader data
  failIf (header.payload ≠ []) (error (unsupported "cmp4 header payload"))
  let s ← runWithin (recoverStep data) (data.length + 1) ⟨header.bodyOffset, [], 0⟩
  let validBodyLen ← total (tryU64 s.cursor "cmp4 recovery offset is too large")
  return {
    validBodyLen := validBodyLen
    footer := ⟨s.expectedFirstRow, s.rowGroups⟩
    discardedTail := s.cursor < data.length }

theorem inspectFooter_total (data : List UInt8) :
    inspectFooter data = total (CompactCore.Io.V4.inspectFooter data) :=
  total_bind_of (Format.readHeader_total _ _ _ _) fun _ _ => Format.V4.decodeFooter_total data

theorem validateRowGroups_total {data : List UInt8} (hfit : Fits data) (expectedOffset : UInt64)
    (rowGroups : List RowGroupIndexEntry) : validateRowGroups data expectedOffset rowGroups =
      total (CompactCore.Io.V4.validateRowGroups data expectedOffset rowGroups) := by
  induction rowGroups generalizing expectedOffset with
  | nil => rfl
  | cons rowGroup rowGroups ih =>
      rw [validateRowGroups, CompactCore.Io.V4.validateRowGroups]
      refine total_bind_of (total_failIf _ _).symm fun _ _ => ?_
      refine total_bind_of (verifyRowGroup_total hfit rowGroup true) fun _ _ => ?_
      exact total_bind_of (total_okOr _ _).symm fun next _ => ih next

theorem validateFile_total {data : List UInt8} (hfit : Fits data) :
    validateFile data = total (CompactCore.Io.V4.validateFile data) := by
  rw [validateFile, CompactCore.Io.V4.validateFile]
  refine total_bind_of (Format.readHeader_total _ _ _ _) fun header _ => ?_
  refine total_bind_of (total_failIf _ _).symm fun _ _ => ?_
  refine total_bind_of (Format.V4.decodeFooterTrailer_total data) fun trailer _ => ?_
  refine total_bind_of (Format.V4.decodeFooter_total data) fun footer _ => ?_
  refine total_bind_of rfl fun _ _ => ?_
  refine total_bind_of (validateRowGroups_total hfit _ _) fun _ _ => ?_
  exact total_bind_of (total_failIf _ _).symm fun _ _ => rfl

theorem recoverStep_total {data : List UInt8} (hfit : Fits data) (s : RecoveryState) :
    recoverStep data s = total (CompactCore.Io.V4.recoverStep data s) := by
  unfold recoverStep CompactCore.Io.V4.recoverStep
  split
  · refine total_bind_of rfl fun rowGroupIndex _ => ?_
    rw [recoverRowGroup_total hfit, attempt_total]
    -- an error ends the loop, on either side
    cases CompactCore.Io.V4.recoverRowGroup data s.cursor rowGroupIndex s.expectedFirstRow with
    | error e => rfl
    | ok r => exact total_bind_of (total_okOr _ _).symm fun _ _ => rfl
  · rfl

/-- Every row group takes a byte, so the length of the file limits the rounds. -/
theorem recoverFilePrefix_total {data : List UInt8} (hfit : Fits data) :
    recoverFilePrefix data = total (CompactCore.Io.V4.recoverFilePrefix data) := by
  rw [recoverFilePrefix, CompactCore.Io.V4.recoverFilePrefix]
  refine total_bind_of (Format.readHeader_total _ _ _ _) fun header _ => ?_
  refine total_bind_of (total_failIf _ _).symm fun _ _ => ?_
  have hrounds : (recoverLoop data).measure ⟨header.bodyOffset, [], 0⟩ < data.length + 1 :=
    Nat.lt_succ_of_le (Nat.sub_le ..)
  refine total_bind_of (total_runWithin_of (fun s _ => recoverStep_total hfit s) hrounds)
    fun s _ => ?_
  exact total_bind_of rfl fun _ _ => rfl

end CompactCore.Checked.Io.V4

/-! ### Scanning -/

namespace CompactCore.Io.V4

open Wire CompactError

/-- The columns of a projection are different columns of the schema. -/
theorem length_selectFrom_le {columns selected : List ColumnSchema} {seen names : List String}
    (h : selectFrom columns seen names = .ok selected) :
    selected.length = names.length ∧ names.Nodup ∧ (∀ name ∈ names, name ∉ seen) ∧
      ∀ name ∈ names, name ∈ columns.map (·.name) := by
  induction names generalizing seen selected with
  | nil =>
      cases h
      simp
  | cons name names ih =>
      simp only [selectFrom, bind_ok, failIf_ok, okOr_ok, pure_ok] at h
      obtain ⟨_, hseen, column, hfind, rest, hrest, rfl⟩ := h
      obtain ⟨hlen, hnodup, hfresh, hmem⟩ := ih hrest
      obtain ⟨hcolumn, hname⟩ := findColumn_some hfind
      refine ⟨by rw [List.length_cons, hlen, List.length_cons], ?_, ?_, ?_⟩
      · exact List.nodup_cons.2 ⟨fun hin => hfresh name hin List.mem_cons_self, hnodup⟩
      · rintro other hother hin
        rcases List.mem_cons.1 hother with rfl | hother
        · exact hseen hin
        · exact hfresh other hother (List.mem_cons_of_mem _ hin)
      · rintro other hother
        rcases List.mem_cons.1 hother with rfl | hother
        · exact List.mem_map.2 ⟨column, hcolumn, hname⟩
        · exact hmem other hother

/-- A projection has no more columns than the schema. -/
theorem length_selectProjection_le {columns selected : List ColumnSchema}
    {projection : List String} (h : selectProjection columns projection = .ok selected) :
    selected.length ≤ columns.length := by
  unfold selectProjection at h
  split at h
  · cases h
    exact le_rfl
  · obtain ⟨hlen, hnodup, -, hmem⟩ := length_selectFrom_le h
    have hle := (hnodup.subperm hmem).length_le
    rw [List.length_map] at hle
    omega

end CompactCore.Io.V4

namespace CompactCore.Checked.Io.V4

open Wire Fault CompactError
open CompactCore.Format.V3 (ColumnChunkMetadata)
open CompactCore.Format.V4 (ColumnIndexEntry RowGroupIndexEntry)
open CompactCore.Io.V3 (validateImplementedSchema validateMetadataAgainstSchema)
open CompactCore.Io.V4 (Predicate ScanResult DecodedSelection predicateColumn findColumn
  requiredNames checkedSlice selectProjection validateFooterColumnMatchesMetadata)

/-- The column that a predicate is about, which every predicate has. -/
def expectColumn (predicate : Predicate) : Outcome String :=
  okOr .panic (predicateColumn (some predicate))

def validatePredicate (columns : List ColumnSchema) : Option Predicate → Outcome Unit
  | none => .ok ()
  | some predicate => do
      let columnName ← expectColumn predicate
      let column ← okOr (error (invalidInput "cmp4 predicate column does not exist"))
        (findColumn columns columnName)
      match predicate with
      | .u64 _ _ =>
          failIf (column.valueType ≠ .u64)
            (error (invalidInput "cmp4 u64 predicate requires a u64 column"))
      | .isNull _ => .ok ()

def decodeFooterColumn (data : List UInt8) (rowGroup : RowGroupIndexEntry)
    (footerColumn : ColumnIndexEntry) (schema : ColumnSchema) :
    Outcome CompactCore.Io.V3.DecodedColumn := do
  let metadataBytes ← total (checkedSlice data footerColumn.metadataOffset footerColumn.metadataLen
    "cmp4 column metadata is truncated")
  let (metadata, consumed) ← Format.V3.decodeColumnMetadata metadataBytes
  failIf (consumed ≠ metadataBytes.length)
    (error (invalidInput "cmp4 column metadata has trailing bytes"))
  let rowCount ← total (tryUsize rowGroup.rowCount "cmp4 row count is too large")
  total (validateMetadataAgainstSchema metadata schema rowCount)
  total (validateFooterColumnMatchesMetadata footerColumn metadata)
  let payload ← total (checkedSlice data footerColumn.payloadOffset footerColumn.payloadLen
    "cmp4 column payload is truncated")
  V3.decodeColumn metadata payload

/-- Decode the column of a row group that a column of the schema names. -/
def decodeSchemaColumn (data : List UInt8) (rowGroup : RowGroupIndexEntry)
    (schema : ColumnSchema) : Outcome CompactCore.Io.V3.DecodedColumn := do
  let footerColumn ← okOr
    (error (invalidInput "cmp4 projected column is missing from row group"))
    (rowGroup.columns.find? (·.name == schema.name))
  decodeFooterColumn data rowGroup footerColumn schema

/-- Decode one required column. -/
def decodeRequired (data : List UInt8) (rowGroup : RowGroupIndexEntry)
    (schemaColumns projectedColumns : List ColumnSchema) (name : String) :
    Outcome DecodedSelection := do
  let schema ← okOr (error (invalidInput "cmp4 projected column does not match schema"))
    ((findColumn projectedColumns name).or (findColumn schemaColumns name))
  let decoded ← decodeSchemaColumn data rowGroup schema
  return ⟨schema.name, decoded, projectedColumns.any (·.name == schema.name)⟩

def decodeRowGroupProjection [Crc32Fast] (data : List UInt8) (rowGroup : RowGroupIndexEntry)
    (schemaColumns projectedColumns : List ColumnSchema) (predicate : Option Predicate)
    (verifyFullChecksum : Bool) : Outcome (List DecodedSelection) := do
  verifyRowGroup data rowGroup verifyFullChecksum
  let _ ← addUsize projectedColumns.length (if predicate.isSome then 1 else 0)
  (requiredNames projectedColumns predicate).mapM
    (decodeRequired data rowGroup schemaColumns projectedColumns)

def rowMatches (decoded : List DecodedSelection) (rowIndex : ℕ) :
    Option Predicate → Outcome Bool
  | none => .ok true
  | some predicate => do
      let columnName ← expectColumn predicate
      let column ← okOr (error (invalidInput "cmp4 predicate column was not decoded"))
        (decoded.find? (·.name == columnName))
      let value ← total (column.decoded.valueAt rowIndex)
      match predicate with
      | .u64 _ op => return (value.asU64.map op.holds).getD false
      | .isNull _ => return value.isNull

/-- Whether a row group may hold a match, as far as its footer entry says. -/
def rowGroupMayMatch (rowGroup : RowGroupIndexEntry) : Option Predicate → Outcome Bool
  | none => .ok true
  | some predicate => do
      let columnName ← expectColumn predicate
      let footerColumn ← okOr
        (error (invalidInput "cmp4 predicate column is missing from row group"))
        (rowGroup.columns.find? (·.name == columnName))
      match predicate with
      | .isNull _ => return 0 < footerColumn.nullCount
      | .u64 _ op => do
          let statistics ← Statistics.decode footerColumn.statisticsMetadata
          match statistics with
          | .u64 min max => return op.mayHold min max
          | _ => return true

/-- Render one row, if it matches. -/
def renderFilteredRow [SerdeJson] (projectedColumns : List ColumnSchema)
    (decoded : List DecodedSelection) (predicate : Option Predicate) (out : String)
    (rowIndex : ℕ) : Outcome String := do
  let matched ← rowMatches decoded rowIndex predicate
  if matched then do
    let members ←
      total (projectedColumns.mapM (CompactCore.Io.V4.projectedValue decoded rowIndex))
    return out ++ renderObject members ++ "\n"
  else return out

def renderFilteredRows [SerdeJson] (out : String) (projectedColumns : List ColumnSchema)
    (decoded : List DecodedSelection) (predicate : Option Predicate) : Outcome String :=
  let rowCount := (decoded.head?.map (·.decoded.len)).getD 0
  (List.range rowCount).foldlM (renderFilteredRow projectedColumns decoded predicate) out

section

variable [SerdeJson] [Crc32Fast]

/-- Scan one row group, or skip it. -/
def scanRowGroup (data : List UInt8) (columns projectedColumns : List ColumnSchema)
    (predicate : Option Predicate) (s : ScanResult) (rowGroup : RowGroupIndexEntry) :
    Outcome ScanResult := do
  let mayMatch ← rowGroupMayMatch rowGroup predicate
  if mayMatch then do
    let decoded ←
      decodeRowGroupProjection data rowGroup columns projectedColumns predicate true
    let jsonl ← renderFilteredRows s.jsonl projectedColumns decoded predicate
    let rowGroupsScanned ← addUsize s.rowGroupsScanned 1
    return { s with jsonl := jsonl, rowGroupsScanned := rowGroupsScanned }
  else do
    let rowGroupsPruned ← addUsize s.rowGroupsPruned 1
    return { s with rowGroupsPruned := rowGroupsPruned }

/-- Scan with optional projection and predicate pushdown. -/
def scanJsonl (data : List UInt8) (schema : Schema) (projection : List String)
    (predicate : Option Predicate) : Outcome ScanResult := do
  let columns ← total (validateImplementedSchema schema)
  let header ← Format.V4.decodeHeader data
  failIf (header.payload ≠ []) (error (unsupported "cmp4 header payload"))
  let footer ← Format.V4.decodeFooter data
  let projectedColumns ← total (selectProjection columns projection)
  validatePredicate columns predicate
  footer.rowGroups.foldlM (scanRowGroup data columns projectedColumns predicate) ⟨"", 0, 0⟩

end

theorem expectColumn_eq (predicate : Predicate) : expectColumn predicate = .ok predicate.column :=
  rfl

theorem validatePredicate_total (columns : List ColumnSchema) (predicate : Option Predicate) :
    validatePredicate columns predicate =
      total (CompactCore.Io.V4.validatePredicate columns predicate) := by
  cases predicate with
  | none => rfl
  | some predicate =>
      rw [validatePredicate, CompactCore.Io.V4.validatePredicate,
        ok_bind_eq (expectColumn_eq predicate)]
      refine total_bind_of (total_okOr _ _).symm fun column _ => ?_
      cases predicate with
      | u64 name op => exact (total_failIf _ _).symm
      | isNull name => rfl

/-- Every slice is checked, and the null count of the record was compared. -/
theorem decodeSchemaColumn_total {data : List UInt8} (hfit : Fits data)
    (rowGroup : RowGroupIndexEntry) (schema : ColumnSchema) :
    decodeSchemaColumn data rowGroup schema =
      total (CompactCore.Io.V4.decodeSchemaColumn data rowGroup schema) := by
  rw [decodeSchemaColumn, CompactCore.Io.V4.decodeSchemaColumn]
  refine total_bind_of (total_okOr _ _).symm fun footerColumn _ => ?_
  rw [decodeFooterColumn, CompactCore.Io.V4.decodeFooterColumn]
  refine total_bind_of rfl fun metadataBytes hbytes => ?_
  have hfit' := hfit.of_at ((CompactCore.Io.V4.checkedSlice_ok hfit).1 hbytes).1
  refine total_bind_of (Format.V3.decodeColumnMetadata_total _) fun r hmetadata => ?_
  rcases r with ⟨metadata, consumed⟩
  have hle := Format.V3.nullCount_le hfit' hmetadata
  refine total_bind_of (total_failIf _ _).symm fun _ _ => ?_
  refine total_bind_of rfl fun _ _ => ?_
  refine total_bind_of rfl fun _ _ => ?_
  refine total_bind_of rfl fun _ _ => ?_
  refine total_bind_of rfl fun payload hpayload => ?_
  exact V3.decodeColumn_total hle
    (hfit.of_at ((CompactCore.Io.V4.checkedSlice_ok hfit).1 hpayload).1)

theorem decodeRowGroupProjection_total [Crc32Fast] {data : List UInt8} (hfit : Fits data)
    (rowGroup : RowGroupIndexEntry) (schemaColumns : List ColumnSchema)
    {projectedColumns : List ColumnSchema} (hcolumns : projectedColumns.length ≤ maxAllocation)
    (predicate : Option Predicate) (verifyFullChecksum : Bool) :
    decodeRowGroupProjection data rowGroup schemaColumns projectedColumns predicate
        verifyFullChecksum =
      total (CompactCore.Io.V4.decodeRowGroupProjection data rowGroup schemaColumns
        projectedColumns predicate verifyFullChecksum) := by
  rw [decodeRowGroupProjection, CompactCore.Io.V4.decodeRowGroupProjection]
  refine total_bind_of (verifyRowGroup_total hfit rowGroup verifyFullChecksum) fun _ _ => ?_
  have hsum : projectedColumns.length + (if predicate.isSome then 1 else 0) < wordSize := by
    rw [maxAllocation] at hcolumns
    rw [wordSize]
    split <;> omega
  rw [ok_bind_eq (addUsize_of hsum)]
  refine total_mapM_of fun name _ => ?_
  rw [decodeRequired, CompactCore.Io.V4.decodeRequired]
  refine total_bind_of (total_okOr _ _).symm fun schema _ => ?_
  exact total_bind_of (decodeSchemaColumn_total hfit rowGroup schema) fun _ _ => rfl

theorem rowMatches_total (decoded : List DecodedSelection) (rowIndex : ℕ)
    (predicate : Option Predicate) : rowMatches decoded rowIndex predicate =
      total (CompactCore.Io.V4.rowMatches decoded rowIndex predicate) := by
  cases predicate with
  | none => rfl
  | some predicate =>
      rw [rowMatches, CompactCore.Io.V4.rowMatches, ok_bind_eq (expectColumn_eq predicate)]
      refine total_bind_of (total_okOr _ _).symm fun column _ => ?_
      refine total_bind_of rfl fun value _ => ?_
      cases predicate <;> rfl

theorem rowGroupMayMatch_total (rowGroup : RowGroupIndexEntry) (predicate : Option Predicate) :
    rowGroupMayMatch rowGroup predicate =
      total (CompactCore.Io.V4.rowGroupMayMatch rowGroup predicate) := by
  cases predicate with
  | none => rfl
  | some predicate =>
      rw [rowGroupMayMatch, CompactCore.Io.V4.rowGroupMayMatch,
        ok_bind_eq (expectColumn_eq predicate)]
      refine total_bind_of (total_okOr _ _).symm fun footerColumn _ => ?_
      cases predicate with
      | isNull name => rfl
      | u64 name op =>
          refine total_bind_of (Statistics.decode_total _) fun statistics _ => ?_
          cases statistics <;> rfl

theorem renderFilteredRows_total [SerdeJson] (out : String) (projectedColumns : List ColumnSchema)
    (decoded : List DecodedSelection) (predicate : Option Predicate) :
    renderFilteredRows out projectedColumns decoded predicate =
      total (CompactCore.Io.V4.renderFilteredRows out projectedColumns decoded predicate) := by
  rw [renderFilteredRows, CompactCore.Io.V4.renderFilteredRows]
  refine total_foldlM_of (P := fun _ => True) (fun out _ rowIndex _ => ?_)
    (fun _ _ _ _ _ => trivial) trivial
  rw [renderFilteredRow, CompactCore.Io.V4.renderFilteredRow]
  refine total_bind_of (rowMatches_total decoded rowIndex predicate) fun matched _ => ?_
  split
  · exact total_bind_of rfl fun _ _ => rfl
  · rfl

section

variable [SerdeJson] [Crc32Fast]

/-- The counters of a scan stay below the number of row groups that have been looked at. -/
theorem scanRowGroup_total {data : List UInt8} (hfit : Fits data) (columns : List ColumnSchema)
    {projectedColumns : List ColumnSchema} (hcolumns : projectedColumns.length ≤ maxAllocation)
    (predicate : Option Predicate) {s : ScanResult} (rowGroup : RowGroupIndexEntry)
    (hscanned : s.rowGroupsScanned + 1 < wordSize) (hpruned : s.rowGroupsPruned + 1 < wordSize) :
    scanRowGroup data columns projectedColumns predicate s rowGroup =
      total (CompactCore.Io.V4.scanRowGroup data columns projectedColumns predicate s
        rowGroup) := by
  rw [scanRowGroup, CompactCore.Io.V4.scanRowGroup]
  refine total_bind_of (rowGroupMayMatch_total rowGroup predicate) fun mayMatch _ => ?_
  split
  · refine total_bind_of
      (decodeRowGroupProjection_total hfit rowGroup columns hcolumns predicate true)
      fun decoded _ => ?_
    refine total_bind_of (renderFilteredRows_total _ _ _ _) fun jsonl _ => ?_
    rw [ok_bind_eq (addUsize_of hscanned)]
    rfl
  · rw [ok_bind_eq (addUsize_of hpruned)]
    rfl

/-- A row group is counted once. -/
theorem scanRowGroup_counts {data : List UInt8} {columns projectedColumns : List ColumnSchema}
    {predicate : Option Predicate} {s s' : ScanResult} {rowGroup : RowGroupIndexEntry}
    (h : CompactCore.Io.V4.scanRowGroup data columns projectedColumns predicate s rowGroup =
      .ok s') : s'.rowGroupsScanned ≤ s.rowGroupsScanned + 1 ∧
        s'.rowGroupsPruned ≤ s.rowGroupsPruned + 1 := by
  rw [CompactCore.Io.V4.scanRowGroup, bind_ok] at h
  obtain ⟨mayMatch, -, h⟩ := h
  split at h
  · simp only [bind_ok, pure_ok] at h
    obtain ⟨_, -, _, -, rfl⟩ := h
    exact ⟨le_rfl, Nat.le_succ _⟩
  · cases h
    exact ⟨Nat.le_succ _, le_rfl⟩

theorem scanRowGroups_total {data : List UInt8} (hfit : Fits data) (columns : List ColumnSchema)
    {projectedColumns : List ColumnSchema} (hcolumns : projectedColumns.length ≤ maxAllocation)
    (predicate : Option Predicate) {s : ScanResult} {rowGroups : List RowGroupIndexEntry}
    (hscanned : s.rowGroupsScanned + rowGroups.length < wordSize)
    (hpruned : s.rowGroupsPruned + rowGroups.length < wordSize) :
    rowGroups.foldlM (scanRowGroup data columns projectedColumns predicate) s =
      total (rowGroups.foldlM
        (CompactCore.Io.V4.scanRowGroup data columns projectedColumns predicate) s) := by
  induction rowGroups generalizing s with
  | nil => rfl
  | cons rowGroup rowGroups ih =>
      rw [List.length_cons] at hscanned hpruned
      rw [List.foldlM_cons, List.foldlM_cons]
      refine total_bind_of (scanRowGroup_total hfit columns hcolumns predicate rowGroup (by omega)
        (by omega)) fun s' hs' => ?_
      obtain ⟨hscanned', hpruned'⟩ := scanRowGroup_counts hs'
      exact ih (by omega) (by omega)

/-- **The `CMP4` scan does not panic**, for any projection and any predicate. -/
theorem scanJsonl_total {data : List UInt8} (hfit : Fits data) {schema : Schema}
    (hschema : schema.columns.length ≤ maxAllocation) (projection : List String)
    (predicate : Option Predicate) : scanJsonl data schema projection predicate =
      total (CompactCore.Io.V4.scanJsonl data schema projection predicate) := by
  rw [scanJsonl, CompactCore.Io.V4.scanJsonl]
  refine total_bind_of rfl fun columns hcolumns => ?_
  obtain ⟨rfl, -, -⟩ := CompactCore.Io.V3.validateImplementedSchema_ok hcolumns
  refine total_bind_of (Format.readHeader_total _ _ _ _) fun header _ => ?_
  refine total_bind_of (total_failIf _ _).symm fun _ _ => ?_
  refine total_bind_of (Format.V4.decodeFooter_total data) fun footer hfooter => ?_
  have hlimit := ((CompactCore.Format.V4.decodeFooter_ok hfit).1 hfooter).1.rowGroups
  refine total_bind_of rfl fun projectedColumns hprojected => ?_
  have hlen := (CompactCore.Io.V4.length_selectProjection_le hprojected).trans hschema
  refine total_bind_of (validatePredicate_total _ _) fun _ _ => ?_
  have hcount : footer.rowGroups.length < wordSize :=
    lt_of_le_of_lt hlimit (by rw [maxCollectionEntries, wordSize]; omega)
  exact scanRowGroups_total hfit _ hlen predicate (by simpa using hcount) (by simpa using hcount)

/-- **No reader of the v0.3 formats panics, and every loop ends**, whatever bytes they are given:
the scan for every projection and predicate, the readers of `CMP4` files that need no schema, and
the decoder and the inspector of `CMP3` files. -/
theorem fileReaders_safe {data : List UInt8} (hdata : IsSlice data) :
    (∀ schema : Schema, schema.columns.length ≤ maxAllocation →
      ∀ projection predicate, Safe (scanJsonl data schema projection predicate)) ∧
    Safe (inspectFooter data) ∧ Safe (validateFile data) ∧ Safe (recoverFilePrefix data) ∧
    (∀ schema, Safe (V3.decodeJsonl data schema)) ∧ Safe (V3.inspectJsonl data) := by
  have hfit := hdata.fits
  refine ⟨fun schema hschema projection predicate => ?_, ?_, ?_, ?_, fun schema => ?_, ?_⟩
  · rw [scanJsonl_total hfit hschema]
    exact safe_total _
  · rw [inspectFooter_total]
    exact safe_total _
  · rw [validateFile_total hfit]
    exact safe_total _
  · rw [recoverFilePrefix_total hfit]
    exact safe_total _
  · rw [V3.decodeJsonl_total hfit]
    exact safe_total _
  · rw [V3.inspectJsonl_total hfit]
    exact safe_total _

end

open scoped CompactCore.Reference

/-- The index of no rows in as many row groups as a word can count. -/
def hugeIndex : List UInt8 := le64 0 ++ le64 (-1)

/-- A file with that index, whose trailer and checksum are right. -/
def hugeFooter : List UInt8 :=
  CompactCore.Format.V4.encodeEmptyHeader ++ (hugeIndex ++
    CompactCore.Format.V4.encodeTrailer ⟨10, 16, checksum32 hugeIndex⟩)

/-- A schema of one column of words. -/
def wordsSchema : Schema := ⟨[⟨"n", .u64, .bitpack, true⟩]⟩

/-- The metadata of a column of as many nulls as a word can count. -/
def hugeColumn : List UInt8 :=
  (CompactCore.Format.V3.encodeColumnMetadata ⟨"n", .u64, true, .bitpack, -1, -1, 0, 0,
    [0] ++ le64 0, [CompactCore.Statistics.noneTag]⟩).toOption.getD []

/-- The row group of that column. -/
def hugeRowGroup : List UInt8 :=
  CompactCore.Io.V3.rowGroupMagic ++ le64 0 ++ le64 0 ++ le64 (-1) ++ le64 0 ++ le32 1 ++
    le32 (UInt32.ofNat hugeColumn.length) ++ hugeColumn

/-- A `CMP3` file of that row group, whose checksum is right. -/
def hugeRows : List UInt8 :=
  CompactCore.Format.V3.encodeEmptyHeader ++ (hugeRowGroup ++ le32 (checksum32 hugeRowGroup))

set_option maxRecDepth 8192 in
/-- Counts that no vector has room for, in a file of each of the formats. -/
theorem fileReaders_safe_huge :
    inspectFooter hugeFooter =
        .error (error (invalidInput "cmp4 row group count exceeds footer bounds")) ∧
      (recoverFilePrefix hugeFooter = .ok ⟨10, ⟨0, []⟩, true⟩) ∧
      Safe (scanJsonl hugeFooter wordsSchema ["n"] (some (.isNull "n"))) ∧
      V3.decodeJsonl hugeRows wordsSchema =
        .error (error (invalidInput "cmp3 numeric value count exceeds configured limit")) ∧
      Safe (V3.decodeJsonl hugeRows wordsSchema) ∧ Safe (V3.inspectJsonl hugeRows) := by
  have hfooter : IsSlice hugeFooter := by decide +kernel
  have hrows : IsSlice hugeRows := by decide +kernel
  obtain ⟨hscan, -⟩ := fileReaders_safe hfooter
  obtain ⟨-, -, -, -, hdecode, hinspect⟩ := fileReaders_safe hrows
  exact ⟨by decide +kernel, by decide +kernel, hscan wordsSchema (by decide) _ _, by decide +kernel,
    hdecode wordsSchema, hinspect⟩

end CompactCore.Checked.Io.V4
