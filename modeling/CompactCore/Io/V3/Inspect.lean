/-
**Inspecting `CMP3` files.**

A `CMP3` file is a header and one row group with a checksum behind it.  The inspector reads the
metadata of every column and skips the values.

Main definitions:

* `CompactCore.Io.V3.inspectJsonl` — the inspector.

Main results:

* `CompactCore.Io.V3.inspectJsonl_columns` — the columns it reports agree with the row group.
-/

import CompactCore.Io.V3

set_option relaxedAutoImplicit false
set_option autoImplicit false

namespace CompactCore.Io.V3

open Wire CompactError Format.V3

/-- `b"RGB3"`. -/
def rowGroupMagic : List UInt8 := [0x52, 0x47, 0x42, 0x33]

def checksumLen : ℕ := 4

structure ColumnInspect where
  metadata : ColumnChunkMetadata
  statistics : ColumnStatistics
  deriving DecidableEq, Repr

structure Inspect where
  rowCount : UInt64
  rawSize : UInt64
  encodedSize : ℕ
  columns : List ColumnInspect
  deriving DecidableEq, Repr

def readBytes (err : String) : ℕ → Reader CompactError (List UInt8) :=
  readExact (invalidInput "cmp3 row group length overflow") (invalidInput err)

/-- The metadata of a column, and past its values. -/
def inspectColumn (rowCount : UInt64) : Reader CompactError ColumnInspect := do
  let metadataLen ← readUInt32 (readBytes "cmp3 column metadata length is truncated")
  let bytes ← readBytes "cmp3 column metadata is truncated" metadataLen.toNat
  let (metadata, consumed) ← decodeColumnMetadata bytes
  failIf (consumed ≠ bytes.length) (invalidInput "cmp3 column metadata has trailing bytes")
  failIf (metadata.valueCount ≠ rowCount)
    (invalidInput "cmp3 column value count does not match row group")
  let statistics ← Statistics.decode metadata.statisticsMetadata
  validateStatistics metadata
  let payloadLen ← tryUsize metadata.compressedSize "cmp3 column payload is too large"
  let _ ← readBytes "cmp3 column payload is truncated" payloadLen
  return ⟨metadata, statistics⟩

/-- The row count, the raw size and the columns of a row group. -/
def inspectRowGroup : Reader CompactError (UInt64 × UInt64 × List ColumnInspect) := do
  let magic ← readBytes "cmp3 row group magic is truncated" rowGroupMagic.length
  failIf (magic ≠ rowGroupMagic) (invalidInput "invalid cmp3 row group magic")
  let _ ← readUInt64 (readBytes "cmp3 block index is truncated")
  let _ ← readUInt64 (readBytes "cmp3 first row index is truncated")
  let rowCount ← readUInt64 (readBytes "cmp3 row count is truncated")
  let rawSize ← readUInt64 (readBytes "cmp3 raw jsonl size is truncated")
  let columnCount ← readUInt32 (readBytes "cmp3 column count is truncated")
  let columnCount := columnCount.toNat
  let remaining ← Reader.remaining
  failIf (maxCollectionEntries < columnCount ∨ remaining / 4 < columnCount)
    (invalidInput "cmp3 column count exceeds row group bounds")
  let columns ← Reader.repeatRead (inspectColumn rowCount) columnCount
  return (rowCount, rawSize, columns)

/-- Inspect metadata and statistics without decoding column values. -/
def inspectJsonl [Crc32Fast] (data : List UInt8) : Result Inspect := do
  let header ← decodeHeader data
  -- the header of a file ends inside the file
  let rowGroup := data.drop header.bodyOffset
  failIf (rowGroup.length < checksumLen) (invalidInput "cmp3 row group is truncated")
  let checksumOffset := rowGroup.length - checksumLen
  let body := rowGroup.take checksumOffset
  failIf (verify body (u32OfLe (rowGroup.drop checksumOffset)) = false)
    (invalidInput "cmp3 row group checksum mismatch")
  let ((rowCount, rawSize, columns), cursor) ← inspectRowGroup body 0
  failIf (cursor ≠ body.length) (invalidInput "cmp3 row group has trailing bytes")
  return ⟨rowCount, rawSize, data.length, columns⟩

/-- A column that is reported has a value for every row, and statistics that fit its metadata. -/
structure ColumnInspect.Agrees (column : ColumnInspect) (rowCount : UInt64) : Prop where
  valueCount_eq : column.metadata.valueCount = rowCount
  statistics_eq : Statistics.decode column.metadata.statisticsMetadata = .ok column.statistics
  valid : validateStatistics column.metadata = .ok ()

theorem inspectColumn_agrees {rowCount : UInt64} {data : List UInt8} {c c' : ℕ}
    {column : ColumnInspect} (h : inspectColumn rowCount data c = .ok (column, c')) :
    column.Agrees rowCount := by
  simp only [inspectColumn, Reader.bind_ok, Reader.lift_ok, failIf_ok, not_not, Reader.pure_ok,
    Prod.exists] at h
  obtain ⟨_, _, _, _, _, _, metadata, _, _, _, _, _, -, _, _, ⟨hcount, -⟩, statistics, _,
    ⟨hstatistics, -⟩, _, _, ⟨hvalid, -⟩, _, _, _, _, _, _, rfl, -⟩ := h
  exact ⟨hcount, hstatistics, hvalid⟩

theorem repeatRead_agrees {rowCount : UInt64} {data : List UInt8} {n c c' : ℕ}
    {columns : List ColumnInspect}
    (h : Reader.repeatRead (inspectColumn rowCount) n data c = .ok (columns, c')) :
    ∀ column ∈ columns, column.Agrees rowCount := by
  induction n generalizing c columns with
  | zero =>
      intro column hcolumn
      rw [← (Reader.pure_ok.1 h).1] at hcolumn
      cases hcolumn
  | succ n ih =>
      simp only [Reader.repeatRead, Reader.bind_ok, Reader.pure_ok] at h
      obtain ⟨first, _, hfirst, rest, _, hrest, rfl, rfl⟩ := h
      exact List.forall_mem_cons.2 ⟨inspectColumn_agrees hfirst, ih hrest⟩

/-- **The columns that are reported agree with the row group.** -/
theorem inspectJsonl_columns [Crc32Fast] {data : List UInt8} {report : Inspect}
    (h : inspectJsonl data = .ok report) :
    ∀ column ∈ report.columns, column.Agrees report.rowCount := by
  simp only [inspectJsonl, bind_ok, pure_ok, Prod.exists] at h
  obtain ⟨header, -, _, -, _, -, rowCount, rawSize, columns, cursor, hgroup, _, -, rfl⟩ := h
  simp only [inspectRowGroup, Reader.bind_ok, Reader.pure_ok, Prod.mk.injEq] at hgroup
  obtain ⟨_, _, -, _, _, -, _, _, -, _, _, -, rows, _, -, _, _, -, _, _, -, _, _, -, _, _, -, _, _,
    hread, ⟨rfl, rfl, rfl⟩, -⟩ := hgroup
  exact repeatRead_agrees hread

end CompactCore.Io.V3
