/-
**The stream readers as checked code.**

A block reader decodes the column block of every frame that its stream holds, and replaying an
append log decodes the blocks that recovery keeps.  Recovery and the scan of the records never
panic: every length of a record is checked before it is used.  So the readers panic exactly where
the column-block decoder does, in a block that they come to.

Main definitions:

* `CompactCore.Checked.Streaming.nextBlock`, `CompactCore.Checked.Streaming.recoverAppendStream`,
  `CompactCore.Checked.Streaming.replayJsonlAppendStream` — the readers;
* `CompactCore.Checked.Streaming.NextRepresentable` — the next block has vectors that can be
  allocated.

Main results:

* `CompactCore.Checked.Streaming.recoverAppendStream_total` — recovery never panics;
* `CompactCore.Checked.Streaming.nextBlock_totalIff` — where a reader panics;
* `CompactCore.Checked.Streaming.columnDecoding_safe_iff` — **where decoding a frame, reading a
  block and replaying a log panic**.
-/

import CompactCore.Checked.ColumnBlock
import CompactCore.Reference
import CompactCore.Streaming.Append

set_option relaxedAutoImplicit false
set_option autoImplicit false

namespace CompactCore.Checked.Streaming

open Wire Fault CompactError
open CompactCore.Streaming (BlockMetadata StreamRecord ParsedBlockPayload AppendBlockPayload
  AppendRecovery RecoverState ScanState JsonlBlockReader DecodedBlock DecodeState blockMagicV1
  indexMagicV1 streamHeaderLen frameHeaderLen indexEntryLen streamFlags readExactInvalid
  readAppendSlice emptyCorruptRecovery countJsonlRows metadataOf checkedBlockTotal ensureReaderEof
  readNextMagic)

/-! ### Records -/

/-- `read_slice` with its slice behind the checks. -/
def readSlice (err : String) : ℕ → CheckedReader (List UInt8) :=
  Checked.readExact (invalidInput "block payload length overflow") (invalidInput err)

/-- `read_slice` on an index entry, which has been read as a whole. -/
def readField (err : String) : ℕ → CheckedReader (List UInt8) :=
  Checked.readExact (invalidInput err) (invalidInput err)

def validateStreamHeader : CheckedReader Unit := do
  let header ← (readExactInvalid "stream header is truncated" streamHeaderLen).total
  let magic ← liftM (slice header 0 4 : Outcome (List UInt8))
  liftM (failIf (magic ≠ magicV2) (error (invalidInput "invalid stream magic")))
  let version ← liftM (index header 4 : Outcome UInt8)
  liftM (failIf (version ≠ versionV2) (error (unsupported "stream version")))
  let flags ← liftM (index header 5 : Outcome UInt8)
  liftM (failIf (flags ≠ 0) (error (unsupported "stream flags")))
  let extension ← liftM (slice header 6 10 : Outcome (List UInt8))
  liftM (require (extension.length = 4) : Outcome Unit)
  liftM (failIf (u32OfLe extension ≠ 0) (error (unsupported "stream header extension")))

/-- The fields of an index entry. -/
def parseIndexEntry (expectedIndex : ℕ) : CheckedReader BlockMetadata := do
  let blockIndex ← Checked.readUInt64 (readField "index block index is truncated")
  liftM (failIf (blockIndex ≠ UInt64.ofNat expectedIndex)
    (error (invalidInput "index block index is not sequential")))
  let encodedOffset ← Checked.readUInt64 (readField "index block offset is truncated")
  let rowCount ← Checked.readUInt64 (readField "index row count is truncated")
  let uncompressedSize ← Checked.readUInt64 (readField "index raw size is truncated")
  let compressedSize ← Checked.readUInt64 (readField "index compressed size is truncated")
  let checksum ← Checked.readUInt32 (readField "index checksum is truncated")
  return ⟨blockIndex, encodedOffset, rowCount, uncompressedSize, compressedSize, checksum⟩

def readIndexEntries (expectedIndex : ℕ) : ℕ → CheckedReader (List BlockMetadata)
  | 0 => return []
  | count + 1 => do
      let entry ← (readExactInvalid "index entry is truncated" indexEntryLen).total
      let (block, _) ← liftM (parseIndexEntry expectedIndex entry 0)
      let blocks ← readIndexEntries (expectedIndex + 1) count
      return block :: blocks

def readIndexFooterAfterMagic : CheckedReader (List BlockMetadata) := do
  let blockCount ← (readUInt64 (readExactInvalid "index block count is truncated")).total
  let blockCount ← liftM (total (tryUsize blockCount "index block count is too large"))
  liftM (failIf (maxStreamBlocks < blockCount)
    (error (invalidInput "index block count exceeds configured limit")))
  readIndexEntries 0 blockCount

/-- The frame whose magic has been read. -/
def readFrameAfterMagic (magic : List UInt8) : CheckedReader (List UInt8) := do
  liftM (failIf (magic ≠ magicV1) (error (invalidInput "invalid frame magic")))
  let rest ← (readExactInvalid "frame header is truncated" (frameHeaderLen - 4)).total
  let header := magic ++ rest
  let lenBytes ← liftM (slice header 6 14 : Outcome (List UInt8))
  liftM (require (lenBytes.length = 8) : Outcome Unit)
  let payloadLen ←
    liftM (total (tryUsize (u64OfLe lenBytes) "frame payload length is too large"))
  liftM (failIf (maxEncodedBlockBytes < payloadLen)
    (error (invalidInput "frame payload length exceeds configured limit")))
  let frameLen ← liftM (okOr (error (invalidInput "frame length overflow"))
    (usizeAdd frameHeaderLen payloadLen))
  liftM (withCapacity 1 frameLen : Outcome Unit)
  -- the frame is made as long as it is declared, and read into behind its header
  let payloadPart ←
    liftM (sliceFrom (List.replicate frameLen (0 : UInt8)) frameHeaderLen : Outcome (List UInt8))
  let payload ← (readExactInvalid "frame payload is truncated" payloadPart.length).total
  return header ++ payload

/-- The record whose magic has been read. -/
def readRecordAfterMagic : Option (List UInt8) → CheckedReader StreamRecord
  | none => return .eof
  | some magic =>
      if magic = indexMagicV1 then do
        let index ← readIndexFooterAfterMagic
        return .index index
      else do
        let frame ← readFrameAfterMagic magic
        return .frame frame

def readNextRecordFrom : CheckedReader StreamRecord := do
  let magic ← readNextMagic.total
  readRecordAfterMagic magic

def readBlockPayload : CheckedReader ParsedBlockPayload := do
  let magic ← readSlice "block header is truncated" blockMagicV1.length
  liftM (failIf (magic ≠ blockMagicV1) (error (invalidInput "invalid block magic")))
  let blockIndex ← Checked.readUInt64 (readSlice "block index is truncated")
  let firstRowIndex ← Checked.readUInt64 (readSlice "block first row index is truncated")
  let rowCount ← Checked.readUInt64 (readSlice "block row count is truncated")
  let rowCount ← liftM (total (tryUsize rowCount "block row count is too large"))
  let rawSize ← Checked.readUInt64 (readSlice "block raw size is truncated")
  let rawSize ← liftM (total (tryUsize rawSize "block raw size is too large"))
  let columnBlockLen ← Checked.readUInt64 (readSlice "block column payload length is truncated")
  let columnBlockLen ←
    liftM (total (tryUsize columnBlockLen "block column payload length is too large"))
  let columnBlock ← readSlice "block column payload is truncated" columnBlockLen
  return ⟨blockIndex, firstRowIndex, rowCount, rawSize, columnBlock⟩

def parseBlockPayload (payload : List UInt8) : Outcome ParsedBlockPayload := do
  let (parsed, cursor) ← readBlockPayload payload 0
  failIf (cursor ≠ payload.length) (error (invalidInput "block payload has trailing bytes"))
  return parsed

/-! ### Blocks -/

section

variable [Crc32Fast]

/-- The payload of a block frame, and the fields of the block. -/
def openFrame (frame : List UInt8) : Outcome (List UInt8 × ParsedBlockPayload) := do
  let decoded ← Framing.decodeV1 frame
  failIf (decoded.codec ≠ .columnBlock)
    (error (invalidInput "stream block frame must use column block codec"))
  let parsed ← parseBlockPayload decoded.payload
  return (decoded.payload, parsed)

/-- Encode a codec payload into a v1 frame, for which a vector is asked for. -/
def encodeV1 (codec : Codec) (payload : List UInt8) : Outcome (List UInt8) := do
  let frameLen ← addUsize CompactCore.Framing.headerLen payload.length
  withCapacity 1 frameLen
  return CompactCore.Framing.encodeV1 codec payload

def newWithMode (data : List UInt8) (requireFooter : Bool) : Outcome JsonlBlockReader := do
  let (_, _) ← validateStreamHeader data 0
  return ⟨.start, requireFooter, false⟩

def readNextFrame (data : List UInt8) (s : JsonlBlockReader) :
    Outcome (Option (List UInt8) × JsonlBlockReader) :=
  if s.finished then .ok (none, s)
  else do
    let (record, position) ← readNextRecordFrom data s.scan.position
    match record with
    | .frame frame => return (some frame, s.seek position)
    | .index index => do
        failIf (index ≠ s.scan.metadata)
          (error (invalidInput "footer index does not match scanned blocks"))
        let (_, position) ← total (ensureReaderEof data position)
        return (none, { s.seek position with finished := true })
    | .eof => do
        failIf (s.requireFooter = true)
          (error (invalidInput "sealed stream footer is missing"))
        return (none, { s.seek position with finished := true })

variable [SerdeJson]

/-- Decode the columns of a block, and compare the text with what the block says of it. -/
def decodeBlock (schema : Schema) (parsed : ParsedBlockPayload) : Outcome String := do
  let columnFrame ← encodeV1 .columnBlock parsed.columnBlock
  let jsonl ← Io.decodeJsonl columnFrame schema
  failIf (countJsonlRows jsonl ≠ parsed.rowCount)
    (error (invalidInput "decoded block row count does not match metadata"))
  failIf ((asBytes jsonl).length ≠ parsed.rawSize)
    (error (invalidInput "decoded block raw size does not match metadata"))
  return jsonl

/-- Decode the block of a frame. -/
def decodeFrame (schema : Schema) (s : JsonlBlockReader) (frame : List UInt8) :
    Outcome (DecodedBlock × JsonlBlockReader) := do
  let (payload, parsed) ← openFrame frame
  total (s.scan.expectNext parsed)
  let jsonl ← decodeBlock schema parsed
  let metadata ← total (metadataOf s.scan.nextOffset frame.length payload parsed)
  let scan ← total (s.scan.count "stream block index overflow" "stream row count overflow"
    "stream offset overflow" metadata)
  return (⟨metadata, parsed.firstRowIndex, jsonl⟩, { s with scan := scan })

/-- Decode the next block. -/
def nextBlock (data : List UInt8) (schema : Schema) (s : JsonlBlockReader) :
    Outcome (Option DecodedBlock × JsonlBlockReader) := do
  let (frame, s) ← readNextFrame data s
  match frame with
  | none => return (none, s)
  | some frame => do
      let (block, s) ← decodeFrame schema s frame
      return (some block, s)

def decodeStep (data : List UInt8) (schema : Schema) (s : DecodeState) :
    Outcome (Option DecodeState) := do
  let (block, reader) ← nextBlock data schema s.reader
  match block with
  | none => return none
  | some block => return some ⟨reader, s.output ++ asBytes block.jsonl⟩

end

/-! ### Recovery -/

def readAppendBlockPayload : CheckedReader AppendBlockPayload := do
  let magic ← (readAppendSlice blockMagicV1.length).total
  liftM (failIf (magic ≠ blockMagicV1) (error (invalidInput "invalid block magic")))
  let blockIndex ← Checked.readUInt64 fun len => (readAppendSlice len).total
  let firstRowIndex ← Checked.readUInt64 fun len => (readAppendSlice len).total
  let rowCount ← Checked.readUInt64 fun len => (readAppendSlice len).total
  let rawSize ← Checked.readUInt64 fun len => (readAppendSlice len).total
  let columnBlockLen ← Checked.readUInt64 fun len => (readAppendSlice len).total
  let columnBlockLen ←
    liftM (total (tryUsize columnBlockLen "block column payload length is too large"))
  let _ ← (readAppendSlice columnBlockLen).total
  return ⟨blockIndex, firstRowIndex, rowCount, rawSize⟩

def parseAppendBlockPayload (payload : List UInt8) : Outcome AppendBlockPayload := do
  let (parsed, cursor) ← readAppendBlockPayload payload 0
  failIf (cursor ≠ payload.length) (error (invalidInput "block payload has trailing bytes"))
  return parsed

/-- `data.get(start..start + len)`, whose addition is not checked. -/
def getSlice (data : List UInt8) (start len : ℕ) : Outcome (Option (List UInt8)) := do
  let _ ← addUsize start len
  return CompactCore.Streaming.slice data start len

section

variable [Crc32Fast]

/-- The record at the cursor. -/
def recoverRecord (data : List UInt8) (s : RecoverState) :
    Outcome (Option (ℕ × List UInt8 × AppendBlockPayload)) := do
  let some header ← getSlice data s.cursor frameHeaderLen | return none
  let magic ← sliceTo header 4
  if magic ≠ magicV1 then return none
  let lenBytes ← slice header 6 14
  require (lenBytes.length = 8)
  let payloadLen := (u64OfLe lenBytes).toNat
  if maxEncodedBlockBytes < payloadLen ∨ maxStreamBlocks ≤ s.blocks.length then return none
  let some recordLen := usizeAdd frameHeaderLen payloadLen | return none
  let some frame ← getSlice data s.cursor recordLen | return none
  let some decoded ← attempt (Framing.decodeV1 frame) | return none
  if decoded.codec ≠ .columnBlock then return none
  let some parsed ← attempt (parseAppendBlockPayload decoded.payload) | return none
  if ¬(parsed.blockIndex = s.expectedBlockIndex ∧
      parsed.firstRowIndex = s.expectedFirstRowIndex) then return none
  return some (recordLen, decoded.payload, parsed)

/-- One round of the scan. -/
def recoverStep (data : List UInt8) (s : RecoverState) : Outcome (Option RecoverState) :=
  if s.truncatedOrCorruptTail ∨ data.length ≤ s.cursor then .ok none
  else do
    match ← recoverRecord data s with
    | none => return some { s with truncatedOrCorruptTail := true }
    | some (recordLen, payload, parsed) => some <$> total (s.push recordLen payload parsed)

/-- Recover block metadata and valid byte length from an append stream. -/
def recoverAppendStream (data : List UInt8) : Outcome AppendRecovery :=
  if data = [] then .ok ⟨0, [], 0, 0, 0, false⟩
  else if data.length < streamHeaderLen then .ok emptyCorruptRecovery
  else do
    let magic ← sliceTo data 4
    let version ← index data 4
    let flags ← index data 5
    let extension ← slice data 6 10
    require (extension.length = 4)
    if magic ≠ magicV2 ∨ version ≠ versionV2 ∨ flags ≠ streamFlags ∨ u32OfLe extension ≠ 0 then
      return emptyCorruptRecovery
    let s ← runWithin (recoverStep data) (2 * data.length + 2) ⟨streamHeaderLen, [], 0, 0, false⟩
    let totalRows ← total (checkedBlockTotal s.blocks (·.rowCount) "append row count overflow")
    let totalUncompressedSize ← total (checkedBlockTotal s.blocks (·.uncompressedSize)
      "append uncompressed size overflow")
    let totalCompressedSize ← total (checkedBlockTotal s.blocks (·.compressedSize)
      "append compressed size overflow")
    return ⟨UInt64.ofNat s.cursor, s.blocks, totalRows, totalUncompressedSize,
      totalCompressedSize, s.truncatedOrCorruptTail⟩

/-- Replay a recovered append stream sequentially into JSONL bytes. -/
def replayJsonlAppendStream [SerdeJson] (data : List UInt8) (schema : Schema) :
    Outcome (List UInt8) := do
  let recovery ← recoverAppendStream data
  let valid ← sliceTo data recovery.validLen.toNat
  let reader ← newWithMode valid false
  let s ← runWithin (decodeStep valid schema) (valid.length + 1) ⟨reader, []⟩
  return s.output

end

/-! ### Records do not panic -/

theorem validateStreamHeader_total (data : List UInt8) (c : ℕ) :
    validateStreamHeader data c = total (CompactCore.Streaming.validateStreamHeader data c) := by
  rw [validateStreamHeader, CompactCore.Streaming.validateStreamHeader]
  refine Reader.total_bind_of (Reader.total_apply _ _ _) fun header _ h => ?_
  have hlen : header.length = 10 := (readExact_at h).2.1
  rw [Reader.lift_bind_eq (slice_of (by omega) (by omega))]
  refine Reader.total_bind_of (Reader.total_lift_of (total_failIf _ _).symm) fun _ _ _ => ?_
  rw [Reader.lift_bind_eq (index_getD 0 (by omega))]
  refine Reader.total_bind_of (Reader.total_lift_of (total_failIf _ _).symm) fun _ _ _ => ?_
  rw [Reader.lift_bind_eq (index_getD 0 (by omega))]
  refine Reader.total_bind_of (Reader.total_lift_of (total_failIf _ _).symm) fun _ _ _ => ?_
  rw [Reader.lift_bind_eq (slice_of (by omega) (by omega)),
    Reader.lift_bind_eq (require_of (length_slice (by omega) (by omega)))]
  exact Reader.total_lift_of (total_failIf _ _).symm

theorem parseIndexEntry_total (expectedIndex : ℕ) (data : List UInt8) (c : ℕ) :
    parseIndexEntry expectedIndex data c =
      total (CompactCore.Streaming.parseIndexEntry expectedIndex data c) := by
  rw [parseIndexEntry, CompactCore.Streaming.parseIndexEntry]
  refine Reader.total_bind_of (Checked.readUInt64_total Checked.reads_readExact) fun _ _ _ => ?_
  refine Reader.total_bind_of (Reader.total_lift_of (total_failIf _ _).symm) fun _ _ _ => ?_
  refine Reader.total_bind_of (Checked.readUInt64_total Checked.reads_readExact) fun _ _ _ => ?_
  refine Reader.total_bind_of (Checked.readUInt64_total Checked.reads_readExact) fun _ _ _ => ?_
  refine Reader.total_bind_of (Checked.readUInt64_total Checked.reads_readExact) fun _ _ _ => ?_
  refine Reader.total_bind_of (Checked.readUInt64_total Checked.reads_readExact) fun _ _ _ => ?_
  exact Reader.total_bind_of (Checked.readUInt32_total Checked.reads_readExact) fun _ _ _ => rfl

theorem readIndexEntries_total (expectedIndex count : ℕ) (data : List UInt8) (c : ℕ) :
    readIndexEntries expectedIndex count data c =
      total (CompactCore.Streaming.readIndexEntries expectedIndex count data c) := by
  induction count generalizing expectedIndex c with
  | zero => rfl
  | succ count ih =>
      rw [readIndexEntries, CompactCore.Streaming.readIndexEntries]
      refine Reader.total_bind_of (Reader.total_apply _ _ _) fun entry _ _ => ?_
      refine Reader.total_bind_of (Reader.total_lift_of (parseIndexEntry_total _ _ _))
        fun block _ _ => ?_
      exact Reader.total_bind_of (ih _ _) fun _ _ _ => rfl

theorem readFrameAfterMagic_total (magic data : List UInt8) (c : ℕ) :
    readFrameAfterMagic magic data c =
      total (CompactCore.Streaming.readFrameAfterMagic magic data c) := by
  rw [readFrameAfterMagic, CompactCore.Streaming.readFrameAfterMagic]
  refine Reader.total_bind_of (Reader.total_lift_of (total_failIf _ _).symm) fun _ _ h => ?_
  obtain rfl : magic = magicV1 := not_not.1 (failIf_ok.1 (Reader.lift_ok.1 h).1)
  refine Reader.total_bind_of (Reader.total_apply _ _ _) fun rest _ h => ?_
  have hlen : (magicV1 ++ rest).length = 18 := by
    rw [List.length_append, (readExact_at h).2.1]
    rfl
  rw [Reader.lift_bind_eq (slice_of (by omega) (by omega)),
    Reader.lift_bind_eq (require_of (length_slice (by omega) (by omega)))]
  refine Reader.total_bind_of (Reader.total_lift_of rfl) fun payloadLen _ _ => ?_
  refine Reader.total_bind_of (Reader.total_lift_of (total_failIf _ _).symm) fun _ _ h => ?_
  have hmax : payloadLen ≤ maxEncodedBlockBytes := not_lt.1 (failIf_ok.1 (Reader.lift_ok.1 h).1)
  refine Reader.total_bind_of (Reader.total_lift_of (total_okOr _ _).symm) fun frameLen _ h => ?_
  obtain ⟨-, rfl⟩ := usizeAdd_eq_some.1 (okOr_ok.1 (Reader.lift_ok.1 h).1)
  -- the vector for the frame is short, and its header is inside it
  have hcap : 1 * (frameHeaderLen + payloadLen) ≤ maxAllocation := by
    rw [maxEncodedBlockBytes] at hmax
    rw [frameHeaderLen, maxAllocation]
    omega
  rw [Reader.lift_bind_eq (withCapacity_of hcap),
    Reader.lift_bind_eq (sliceFrom_of (by rw [List.length_replicate]; omega)), List.length_drop,
    List.length_replicate, Nat.add_sub_cancel_left]
  exact Reader.total_bind_of (Reader.total_apply _ _ _) fun _ _ _ => rfl

theorem readNextRecordFrom_total (data : List UInt8) (c : ℕ) :
    readNextRecordFrom data c = total (CompactCore.Streaming.readNextRecordFrom data c) := by
  refine Reader.total_bind_of (Reader.total_apply _ _ _) fun magic c₁ _ => ?_
  cases magic with
  | none => rfl
  | some magic =>
      rw [readRecordAfterMagic, CompactCore.Streaming.readRecordAfterMagic]
      split
      · refine Reader.total_bind_of ?_ fun _ _ _ => rfl
        refine Reader.total_bind_of (Reader.total_apply _ _ _) fun _ _ _ => ?_
        refine Reader.total_bind_of (Reader.total_lift_of rfl) fun _ _ _ => ?_
        refine Reader.total_bind_of (Reader.total_lift_of (total_failIf _ _).symm) fun _ _ _ => ?_
        exact readIndexEntries_total _ _ _ _
      · exact Reader.total_bind_of (readFrameAfterMagic_total _ _ _) fun _ _ _ => rfl

theorem parseBlockPayload_total (payload : List UInt8) :
    parseBlockPayload payload = total (CompactCore.Streaming.parseBlockPayload payload) := by
  refine total_bind_of ?_ fun _ _ => total_bind_of (total_failIf _ _).symm fun _ _ => rfl
  rw [readBlockPayload, CompactCore.Streaming.readBlockPayload]
  refine Reader.total_bind_of (Checked.readExact_total _) fun _ _ _ => ?_
  refine Reader.total_bind_of (Reader.total_lift_of (total_failIf _ _).symm) fun _ _ _ => ?_
  refine Reader.total_bind_of (Checked.readUInt64_total Checked.reads_readExact) fun _ _ _ => ?_
  refine Reader.total_bind_of (Checked.readUInt64_total Checked.reads_readExact) fun _ _ _ => ?_
  refine Reader.total_bind_of (Checked.readUInt64_total Checked.reads_readExact) fun _ _ _ => ?_
  refine Reader.total_bind_of (Reader.total_lift_of rfl) fun _ _ _ => ?_
  refine Reader.total_bind_of (Checked.readUInt64_total Checked.reads_readExact) fun _ _ _ => ?_
  refine Reader.total_bind_of (Reader.total_lift_of rfl) fun _ _ _ => ?_
  refine Reader.total_bind_of (Checked.readUInt64_total Checked.reads_readExact) fun _ _ _ => ?_
  refine Reader.total_bind_of (Reader.total_lift_of rfl) fun _ _ _ => ?_
  exact Reader.total_bind_of (Checked.readExact_total _) fun _ _ _ => rfl

theorem parseAppendBlockPayload_total (payload : List UInt8) :
    parseAppendBlockPayload payload =
      total (CompactCore.Streaming.parseAppendBlockPayload payload) := by
  have hreads : Checked.Reads (fun len => (readAppendSlice len).total)
      (invalidInput "append block length overflow") (invalidInput "append block is truncated") :=
    fun len data c => rfl
  refine total_bind_of ?_ fun _ _ => total_bind_of (total_failIf _ _).symm fun _ _ => rfl
  rw [readAppendBlockPayload, CompactCore.Streaming.readAppendBlockPayload]
  refine Reader.total_bind_of (Reader.total_apply _ _ _) fun _ _ _ => ?_
  refine Reader.total_bind_of (Reader.total_lift_of (total_failIf _ _).symm) fun _ _ _ => ?_
  refine Reader.total_bind_of (Checked.readUInt64_total hreads) fun _ _ _ => ?_
  refine Reader.total_bind_of (Checked.readUInt64_total hreads) fun _ _ _ => ?_
  refine Reader.total_bind_of (Checked.readUInt64_total hreads) fun _ _ _ => ?_
  refine Reader.total_bind_of (Checked.readUInt64_total hreads) fun _ _ _ => ?_
  refine Reader.total_bind_of (Checked.readUInt64_total hreads) fun _ _ _ => ?_
  refine Reader.total_bind_of (Reader.total_lift_of rfl) fun _ _ _ => ?_
  exact Reader.total_bind_of (Reader.total_apply _ _ _) fun _ _ _ => rfl

section

variable [Crc32Fast]

/-! ### Recovery does not panic -/

theorem recoverRecord_total {data : List UInt8} {s : RecoverState} (hdata : IsSlice data)
    (hcursor : s.cursor ≤ data.length) :
    recoverRecord data s = .ok (CompactCore.Streaming.recoverRecord data s) := by
  have hlen : data.length ≤ 2 ^ 63 - 1 := hdata
  have hget : ∀ len, len ≤ 2 ^ 62 → getSlice data s.cursor len =
      .ok (CompactCore.Streaming.slice data s.cursor len) := fun len hle =>
    ok_bind_eq (addUsize_of (by rw [wordSize]; omega)) _
  rw [recoverRecord, CompactCore.Streaming.recoverRecord,
    ok_bind_eq (hget _ (by rw [frameHeaderLen]; omega))]
  simp only [Option.bind_eq_bind]
  -- the scan gives up wherever a test fails, and goes on with what the test has established
  cases hheader : CompactCore.Streaming.slice data s.cursor frameHeaderLen with
  | none => rfl
  | some header =>
      obtain ⟨-, hheaderLen⟩ := CompactCore.Streaming.slice_eq_some.1 hheader
      rw [frameHeaderLen] at hheaderLen
      dsimp only
      rw [ok_bind_eq (sliceTo_of (by omega)), Option.bind_some]
      by_cases hmagic : header.take 4 = magicV1
      case neg => rw [if_pos hmagic, guard_bind_of_not hmagic]; rfl
      rw [if_neg (not_not.2 hmagic), guard_bind_of hmagic,
        ok_bind_eq (slice_of (by omega) (by omega)),
        require_bind (length_slice (by omega) (by omega))]
      generalize (u64OfLe ((header.drop 6).take (14 - 6))).toNat = payloadLen
      by_cases hlimit : maxEncodedBlockBytes < payloadLen ∨ maxStreamBlocks ≤ s.blocks.length
      case pos => rw [if_pos hlimit, guard_bind_of_not (not_not.2 hlimit)]; rfl
      rw [if_neg hlimit, guard_bind_of hlimit]
      cases hrecordLen : usizeAdd frameHeaderLen payloadLen with
      | none => rfl
      | some recordLen =>
          obtain ⟨-, hsum⟩ := usizeAdd_eq_some.1 hrecordLen
          have hmax := not_lt.1 (not_or.1 hlimit).1
          rw [maxEncodedBlockBytes] at hmax
          rw [frameHeaderLen] at hsum
          dsimp only
          rw [ok_bind_eq (hget _ (by omega)), Option.bind_some]
          cases CompactCore.Streaming.slice data s.cursor recordLen with
          | none => rfl
          | some frame =>
              dsimp only
              rw [Framing.decodeV1_total, attempt_total, Option.bind_some]
              cases (CompactCore.Framing.decodeV1 frame).toOption with
              | none => rfl
              | some decoded =>
                  rw [Option.bind_some, ok_bind_eq rfl]
                  dsimp only
                  by_cases hcodec : decoded.codec = .columnBlock
                  case neg => rw [if_pos hcodec, guard_bind_of_not hcodec]; rfl
                  rw [if_neg (not_not.2 hcodec), guard_bind_of hcodec,
                    parseAppendBlockPayload_total, attempt_total]
                  cases (CompactCore.Streaming.parseAppendBlockPayload
                    decoded.payload).toOption with
                  | none => rfl
                  | some parsed =>
                      rw [Option.bind_some, ok_bind_eq rfl]
                      dsimp only
                      by_cases hnext : parsed.blockIndex = s.expectedBlockIndex ∧
                          parsed.firstRowIndex = s.expectedFirstRowIndex
                      · rw [if_neg (not_not.2 hnext), guard_bind_of hnext]
                        rfl
                      · rw [if_pos hnext, guard_bind_of_not hnext]
                        rfl

theorem recoverStep_total {data : List UInt8} {s : RecoverState} (hdata : IsSlice data) :
    recoverStep data s = total (CompactCore.Streaming.recoverStep data s) := by
  rw [recoverStep, CompactCore.Streaming.recoverStep]
  split
  · rfl
  · rename_i hgo
    have hcursor := (not_le.1 (not_or.1 hgo).2).le
    rw [ok_bind_eq (recoverRecord_total hdata hcursor)]
    cases CompactCore.Streaming.recoverRecord data s with
    | none => rfl
    | some record => exact total_map_of rfl _

/-- **Recovery never panics.** -/
theorem recoverAppendStream_total {data : List UInt8} (hdata : IsSlice data) :
    recoverAppendStream data = total (CompactCore.Streaming.recoverAppendStream data) := by
  rw [recoverAppendStream, CompactCore.Streaming.recoverAppendStream]
  split
  · rfl
  · split
    · rfl
    · rename_i hlen
      rw [streamHeaderLen] at hlen
      rw [ok_bind_eq (sliceTo_of (by omega)), ok_bind_eq (index_getD 0 (by omega)),
        ok_bind_eq (index_getD 0 (by omega)), ok_bind_eq (slice_of (by omega) (by omega)),
        require_bind (length_slice (by omega) (by omega))]
      split
      · rfl
      · have hrounds : (CompactCore.Streaming.recoverLoop data).measure
            ⟨streamHeaderLen, [], 0, 0, false⟩ < 2 * data.length + 2 := by
          show 2 * (data.length - streamHeaderLen) + 1 < 2 * data.length + 2
          omega
        have hrun : runWithin (recoverStep data) (2 * data.length + 2)
            ⟨streamHeaderLen, [], 0, 0, false⟩ =
            total ((CompactCore.Streaming.recoverLoop data).run
              ⟨streamHeaderLen, [], 0, 0, false⟩) :=
          total_runWithin_of (fun s _ => recoverStep_total hdata) hrounds
        refine total_bind_of hrun fun s _ => ?_
        refine total_bind_of rfl fun _ _ => ?_
        refine total_bind_of rfl fun _ _ => ?_
        exact total_bind_of rfl fun _ _ => rfl

/-- The recovered bytes are bytes of the log. -/
theorem validLen_le {data : List UInt8} {recovery : AppendRecovery} (hdata : IsSlice data)
    (h : CompactCore.Streaming.recoverAppendStream data = .ok recovery) :
    recovery.validLen.toNat ≤ data.length := by
  have hlen : data.length ≤ 2 ^ 63 - 1 := hdata
  unfold CompactCore.Streaming.recoverAppendStream at h
  split at h
  · cases h
    exact Nat.zero_le _
  · split at h
    · cases h
      exact Nat.zero_le _
    · rename_i hheader
      split at h
      · cases h
        exact Nat.zero_le _
      · simp only [bind_ok, pure_ok] at h
        obtain ⟨s, hrun, _, -, _, -, _, -, rfl⟩ := h
        obtain ⟨hrounds, -⟩ := Loop.run_ok.1 hrun
        -- the cursor stays inside the log
        have hcursor : s.cursor ≤ data.length := by
          refine hrounds.invariant (P := fun s => s.cursor ≤ data.length) (fun a b hle hstep => ?_)
            (not_lt.1 hheader)
          rw [CompactCore.Streaming.recoverLoop_step] at hstep
          unfold CompactCore.Streaming.recoverStep at hstep
          split at hstep
          · cases hstep
          · split at hstep
            · cases hstep
              exact hle
            · rename_i recordLen payload parsed hrecord
              rw [map_ok] at hstep
              obtain ⟨next, hpush, hnext⟩ := hstep
              cases hnext
              rw [(RecoverState.push_ok.1 hpush).2.2.2.1]
              obtain ⟨block, hat, -, -, -, -, rfl, -⟩ :=
                (CompactCore.Streaming.recoverRecord_eq_some hdata.fits).1 hrecord
              exact hat.le
        rw [toNat_ofNat (by omega)]
        exact hcursor

/-! ### Where reading a block panics -/

theorem openFrame_total (frame : List UInt8) :
    openFrame frame = total (CompactCore.Streaming.openFrame frame) := by
  rw [openFrame, CompactCore.Streaming.openFrame]
  refine total_bind_of (Framing.decodeV1_total frame) fun decoded _ => ?_
  refine total_bind_of (total_failIf _ _).symm fun _ _ => ?_
  exact total_bind_of (parseBlockPayload_total _) fun _ _ => rfl

/-- The column block of a frame is shorter than the frame. -/
theorem length_columnBlock_lt {frame payload : List UInt8} {parsed : ParsedBlockPayload}
    (hfit : Fits frame) (h : CompactCore.Streaming.openFrame frame = .ok (payload, parsed)) :
    CompactCore.Framing.headerLen + parsed.columnBlock.length ≤ frame.length := by
  simp only [CompactCore.Streaming.openFrame, bind_ok, pure_ok] at h
  obtain ⟨decoded, hdecoded, _, -, parsed, hparsed, heq⟩ := h
  cases heq
  have hframe := (CompactCore.Framing.decodeV1_ok hfit).1 hdecoded
  have hlen : frame.length = CompactCore.Framing.headerLen + decoded.payload.length := by
    conv_lhs => rw [hframe]
    exact CompactCore.Framing.length_encodeV1 _ _
  have hpayload : Fits decoded.payload := lt_of_le_of_lt (by omega) hfit
  obtain ⟨block, hblock, rfl⟩ := (CompactCore.Streaming.parseBlockPayload_ok hpayload).1 hparsed
  have hle := congrArg List.length hblock
  rw [CompactCore.Streaming.Block.length_payload] at hle
  show _ + block.columnBlock.length ≤ _
  omega

omit [Crc32Fast] in
/-- A frame that has been read is part of the stream. -/
theorem length_readNextFrame_le {data frame : List UInt8} {s s' : JsonlBlockReader}
    (hfit : Fits data) (h : s.readNextFrame data = .ok (some frame, s')) :
    frame.length ≤ data.length := by
  unfold JsonlBlockReader.readNextFrame at h
  split at h
  · cases h
  · simp only [bind_ok, Prod.exists] at h
    obtain ⟨record, position, hrecord, h⟩ := h
    cases record with
    | frame frame =>
        simp only [pure_ok, Prod.mk.injEq, Option.some.injEq] at h
        obtain ⟨rfl, -⟩ := h
        have hle := (CompactCore.Streaming.readNextRecordFrom_frame hfit hrecord).1.le
        omega
    | index index => simp at h
    | eof => simp at h

omit [Crc32Fast] in
theorem readNextFrame_total (data : List UInt8) (s : JsonlBlockReader) :
    readNextFrame data s = total (s.readNextFrame data) := by
  rw [readNextFrame, JsonlBlockReader.readNextFrame]
  split
  · rfl
  · refine total_bind_of (readNextRecordFrom_total data s.scan.position) fun r _ => ?_
    rcases r with ⟨record, position⟩
    cases record with
    | frame frame => rfl
    | index index =>
        refine total_bind_of (total_failIf _ _).symm fun _ _ => ?_
        exact total_bind_of rfl fun _ _ => rfl
    | eof => exact total_bind_of (total_failIf _ _).symm fun _ _ => rfl

variable [SerdeJson]

theorem decodeBlock_totalIff {parsed : ParsedBlockPayload} (schema : Schema)
    (hlen : CompactCore.Framing.headerLen + parsed.columnBlock.length ≤ maxAllocation) :
    TotalIff (Io.BlockRepresentable schema parsed.columnBlock) (decodeBlock schema parsed)
      (CompactCore.Streaming.decodeBlock schema parsed) := by
  have hword : maxAllocation < wordSize := by rw [maxAllocation, wordSize]; omega
  have hencode : encodeV1 .columnBlock parsed.columnBlock =
      .ok (CompactCore.Framing.encodeV1 .columnBlock parsed.columnBlock) := by
    rw [encodeV1, ok_bind_eq (addUsize_of (by omega)), ok_bind_eq (withCapacity_of (by omega))]
    rfl
  have hfit : Fits (CompactCore.Framing.encodeV1 .columnBlock parsed.columnBlock) := by
    rw [Fits, CompactCore.Framing.length_encodeV1]
    omega
  have hframe : CompactCore.Framing.decodeV1
      (CompactCore.Framing.encodeV1 .columnBlock parsed.columnBlock) =
      .ok ⟨.columnBlock, parsed.columnBlock⟩ := (CompactCore.Framing.decodeV1_ok hfit).2 rfl
  rw [decodeBlock, CompactCore.Streaming.decodeBlock, ok_bind_eq hencode]
  refine ((Io.decodeJsonl_totalIff hfit schema).bind_of_total fun jsonl _ => ?_).congr ⟨?_, ?_⟩
  · refine total_bind_of (total_failIf _ _).symm fun _ _ => ?_
    exact total_bind_of (total_failIf _ _).symm fun _ _ => rfl
  · exact fun hall => hall _ hframe
  · intro hblock data hdata
    rw [hframe] at hdata
    cases hdata
    exact hblock

/-- The block that a reader comes to next has vectors that can be allocated. -/
def NextRepresentable (data : List UInt8) (schema : Schema) (s : JsonlBlockReader) : Prop :=
  ∀ frame s' payload parsed, s.readNextFrame data = .ok (some frame, s') →
    CompactCore.Streaming.openFrame frame = .ok (payload, parsed) →
    s'.scan.expectNext parsed = .ok () → Io.BlockRepresentable schema parsed.columnBlock

/-- **Where a block reader panics**: at a block that it comes to. -/
theorem nextBlock_totalIff {data : List UInt8} (hdata : IsSlice data) (schema : Schema)
    (s : JsonlBlockReader) :
    TotalIff (NextRepresentable data schema s) (nextBlock data schema s)
      (s.nextBlock data schema) := by
  have hdecode : ∀ frame s', s.readNextFrame data = .ok (some frame, s') →
      TotalIff (∀ payload parsed, CompactCore.Streaming.openFrame frame = .ok (payload, parsed) →
          s'.scan.expectNext parsed = .ok () → Io.BlockRepresentable schema parsed.columnBlock)
        (decodeFrame schema s' frame) (s'.decodeFrame schema frame) := by
    intro frame s' hframe
    have hlen := length_readNextFrame_le hdata.fits hframe
    have hslice : IsSlice frame := le_trans hlen hdata
    rw [decodeFrame, JsonlBlockReader.decodeFrame]
    refine (TotalIff.bind_total (openFrame_total frame) (R := fun r =>
      s'.scan.expectNext r.2 = .ok () → Io.BlockRepresentable schema r.2.columnBlock)
      fun r hopen => ?_).congr (by simp only [Prod.forall])
    rcases r with ⟨payload, parsed⟩
    have hshort := length_columnBlock_lt hslice.fits hopen
    refine (TotalIff.bind_total rfl fun _ _ =>
      (decodeBlock_totalIff schema (le_trans hshort hslice)).bind_of_total fun _ _ => ?_).congr ?_
    · refine total_bind_of rfl fun _ _ => ?_
      exact total_bind_of rfl fun _ _ => rfl
    · exact ⟨fun h hnext => h () hnext, fun h _ hnext => h hnext⟩
  rw [nextBlock, JsonlBlockReader.nextBlock]
  refine (TotalIff.bind_total (readNextFrame_total data s) (R := fun r => ∀ frame payload parsed,
    r.1 = some frame → CompactCore.Streaming.openFrame frame = .ok (payload, parsed) →
      r.2.scan.expectNext parsed = .ok () → Io.BlockRepresentable schema parsed.columnBlock)
    fun r hframe => ?_).congr ⟨?_, ?_⟩
  · rcases r with ⟨frame, s'⟩
    cases frame with
    | none => exact .of_total (fun _ _ _ h => by cases h) rfl
    | some frame =>
        dsimp only
        refine TotalIff.congr ((hdecode frame s' hframe).bind_of_total ?_) ⟨?_, ?_⟩
        · exact fun _ _ => rfl
        · intro h frame' payload parsed heq
          cases heq
          exact h payload parsed
        · exact fun h payload parsed => h frame payload parsed rfl
  · exact fun h frame s' payload parsed hframe => h ⟨_, s'⟩ hframe frame payload parsed rfl
  · rintro h ⟨_, s'⟩ hframe frame payload parsed rfl
    exact h frame s' payload parsed hframe

/-! ### Where replaying a log panics -/

theorem decodeStep_totalIff {data : List UInt8} (hdata : IsSlice data) (schema : Schema)
    (s : DecodeState) :
    TotalIff (NextRepresentable data schema s.reader) (decodeStep data schema s)
      (CompactCore.Streaming.decodeStep data schema s) := by
  refine (nextBlock_totalIff hdata schema s.reader).bind_of_total fun ⟨block, reader⟩ _ => ?_
  cases block <;> rfl

/-- Every block that replaying a log comes to has vectors that can be allocated. -/
def LogRepresentable (data : List UInt8) (schema : Schema) : Prop :=
  ∀ recovery reader s, CompactCore.Streaming.recoverAppendStream data = .ok recovery →
    JsonlBlockReader.newWithMode (data.take recovery.validLen.toNat) false = .ok reader →
    (CompactCore.Streaming.decodeLoop (data.take recovery.validLen.toNat) schema).Rounds
      ⟨reader, []⟩ s →
    NextRepresentable (data.take recovery.validLen.toNat) schema s.reader

/-- **Where replaying a log panics**: at a block that it comes to. -/
theorem replayJsonlAppendStream_totalIff {data : List UInt8} (hdata : IsSlice data)
    (schema : Schema) :
    TotalIff (LogRepresentable data schema) (replayJsonlAppendStream data schema)
      (CompactCore.Streaming.replayJsonlAppendStream data schema) := by
  rw [replayJsonlAppendStream, CompactCore.Streaming.replayJsonlAppendStream]
  have hrun : ∀ valid, IsSlice valid → ∀ reader,
      TotalIff (∀ s, (CompactCore.Streaming.decodeLoop valid schema).Rounds ⟨reader, []⟩ s →
          NextRepresentable valid schema s.reader)
        (runWithin (decodeStep valid schema) (valid.length + 1) ⟨reader, []⟩)
        ((CompactCore.Streaming.decodeLoop valid schema).run ⟨reader, []⟩) := by
    intro valid hvalid reader
    refine TotalIff.runWithin (fun s _ => decodeStep_totalIff hvalid schema s) ?_
    show valid.length - reader.scan.position < valid.length + 1
    omega
  refine (TotalIff.bind_total (recoverAppendStream_total hdata) (R := fun recovery =>
    ∀ reader s, JsonlBlockReader.newWithMode (data.take recovery.validLen.toNat) false =
        .ok reader →
      (CompactCore.Streaming.decodeLoop (data.take recovery.validLen.toNat) schema).Rounds
        ⟨reader, []⟩ s →
      NextRepresentable (data.take recovery.validLen.toNat) schema s.reader)
    fun recovery hrecovery => ?_).congr ?_
  · rw [ok_bind_eq (sliceTo_of (validLen_le hdata hrecovery))]
    have hvalid : IsSlice (data.take recovery.validLen.toNat) := by
      have hle : (data.take recovery.validLen.toNat).length ≤ data.length := by simp
      exact le_trans hle hdata
    have hnew : newWithMode (data.take recovery.validLen.toNat) false =
        total (JsonlBlockReader.newWithMode (data.take recovery.validLen.toNat) false) :=
      total_bind_of (validateStreamHeader_total _ _) fun _ _ => rfl
    refine TotalIff.congr (TotalIff.bind_total hnew fun reader _ =>
      (hrun _ hvalid reader).bind_of_total ?_) ⟨?_, ?_⟩
    · exact fun _ _ => rfl
    · exact fun h reader s hreader => h reader hreader s
    · exact fun h reader hreader s => h reader s hreader
  · exact ⟨fun h recovery reader s hrecovery => h recovery hrecovery reader s,
      fun h recovery hrecovery reader s => h recovery reader s hrecovery⟩

/-- **Where decoding columns panics**: decoding a frame, reading the next block of a stream from any
state, and replaying a log are safe exactly when every column that they come to has vectors that can
be allocated. -/
theorem columnDecoding_safe_iff {data : List UInt8} (hdata : IsSlice data) (schema : Schema) :
    (Safe (Io.decodeJsonl data schema) ↔
      ∀ block, CompactCore.Framing.decodeV1 data = .ok ⟨.columnBlock, block⟩ →
        Io.BlockRepresentable schema block) ∧
    (∀ s, Safe (nextBlock data schema s) ↔ NextRepresentable data schema s) ∧
    (Safe (replayJsonlAppendStream data schema) ↔ LogRepresentable data schema) :=
  ⟨(Io.decodeJsonl_totalIff hdata.fits schema).safe_iff,
    fun s => (nextBlock_totalIff hdata schema s).safe_iff,
    (replayJsonlAppendStream_totalIff hdata schema).safe_iff⟩

end

open scoped CompactCore.Reference

/-- A schema of one column of strings, in a dictionary. -/
def namesSchema : Schema := ⟨[⟨"n", .string, .dictionary, false⟩]⟩

/-- A column block of no rows, whose dictionary declares as many strings as a word can count. -/
def hugeDictionary : List UInt8 :=
  CompactCore.Io.columnBlockMagic ++ le32 1 ++ le16 1 ++ asBytes "n" ++ [5] ++ le64 0 ++ le64 10 ++
    CompactCore.Varint.encodeU64 [-1]

/-- The frame of the block, as `decode_jsonl` takes it. -/
def hugeFrame : List UInt8 := CompactCore.Framing.encodeV1 .columnBlock hugeDictionary

/-- An append log that holds the block; every checksum in it is right. -/
def hugeLog : List UInt8 :=
  CompactCore.Streaming.writeStreamHeader ++
    CompactCore.Streaming.Block.frame ⟨0, 0, 0, 0, hugeDictionary⟩

theorem decodeJsonl_hugeFrame : Io.decodeJsonl hugeFrame namesSchema = .error .panic := by
  decide +kernel

set_option maxRecDepth 8192 in
theorem nextBlock_hugeLog :
    nextBlock hugeLog namesSchema ⟨.start, false, false⟩ = .error .panic := by
  decide +kernel

set_option maxRecDepth 8192 in
theorem replayJsonlAppendStream_hugeLog :
    replayJsonlAppendStream hugeLog namesSchema = .error .panic := by
  decide +kernel

/-- A column block of two rows, whose dictionary declares the one string that it has. -/
def smallDictionary : List UInt8 :=
  CompactCore.Io.columnBlockMagic ++ le32 1 ++ le16 1 ++ asBytes "n" ++ [5] ++ le64 2 ++ le64 5 ++
    [1, 1, 97, 0, 0]

def smallFrame : List UInt8 := CompactCore.Framing.encodeV1 .columnBlock smallDictionary

def smallLog : List UInt8 :=
  CompactCore.Streaming.writeStreamHeader ++
    CompactCore.Streaming.Block.frame ⟨0, 0, 2, 20, smallDictionary⟩

set_option maxRecDepth 8192 in
/-- The vectors of the one dictionary can be allocated, and those of the other cannot. -/
theorem columnDecoding_safe_iff_dictionaries :
    ((∀ block, CompactCore.Framing.decodeV1 smallFrame = .ok ⟨.columnBlock, block⟩ →
          Io.BlockRepresentable namesSchema block) ∧
        NextRepresentable smallLog namesSchema ⟨.start, false, false⟩ ∧
        LogRepresentable smallLog namesSchema) ∧
      (¬∀ block, CompactCore.Framing.decodeV1 hugeFrame = .ok ⟨.columnBlock, block⟩ →
          Io.BlockRepresentable namesSchema block) ∧
        ¬NextRepresentable hugeLog namesSchema ⟨.start, false, false⟩ ∧
        ¬LogRepresentable hugeLog namesSchema := by
  obtain ⟨hframe, -⟩ :=
    columnDecoding_safe_iff (show IsSlice smallFrame by decide +kernel) namesSchema
  obtain ⟨-, hnext, hlog⟩ :=
    columnDecoding_safe_iff (show IsSlice smallLog by decide +kernel) namesSchema
  obtain ⟨hframe', -⟩ :=
    columnDecoding_safe_iff (show IsSlice hugeFrame by decide +kernel) namesSchema
  obtain ⟨-, hnext', hlog'⟩ :=
    columnDecoding_safe_iff (show IsSlice hugeLog by decide +kernel) namesSchema
  refine ⟨⟨hframe.1 ?_, (hnext _).1 ?_, hlog.1 ?_⟩, fun h => ?_, fun h => ?_, fun h => ?_⟩
  · exact ⟨by decide +kernel, by decide +kernel⟩
  · exact ⟨by decide +kernel, by decide +kernel⟩
  · exact ⟨by decide +kernel, by decide +kernel⟩
  · exact (hframe'.2 h).1 decodeJsonl_hugeFrame
  · exact ((hnext' _).2 h).1 nextBlock_hugeLog
  · exact (hlog'.2 h).1 replayJsonlAppendStream_hugeLog

/-- **A few bytes make the decoder panic**, although the schema is accepted and every checksum is
right: decoding the frame, reading the first block of the log, and replaying the log. -/
theorem columnDecoding_panics :
    IsSlice hugeFrame ∧ IsSlice hugeLog ∧ (∃ columns, namesSchema.supportedColumns = .ok columns) ∧
      ¬Safe (Io.decodeJsonl hugeFrame namesSchema) ∧
      ¬Safe (nextBlock hugeLog namesSchema ⟨.start, false, false⟩) ∧
      ¬Safe (replayJsonlAppendStream hugeLog namesSchema) :=
  ⟨by decide +kernel, by decide +kernel, ⟨_, rfl⟩, fun h => h.1 decodeJsonl_hugeFrame,
    fun h => h.1 nextBlock_hugeLog, fun h => h.1 replayJsonlAppendStream_hugeLog⟩

end CompactCore.Checked.Streaming
