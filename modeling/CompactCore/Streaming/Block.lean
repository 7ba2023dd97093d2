/-
**Blocks of a `CMP2` stream.**

A `CMP2` stream is a header, block frames that follow each other, and, if it is sealed, an `IDX1`
footer that repeats what the blocks say of themselves.  Writer, readers, the append log and the
parallel workers share the bytes of a block and read them off a stream record by record; this module
has these bytes, and what a reader may find where the next record starts.

Main definitions:

* `CompactCore.Streaming.encodeBlockPayload`, `CompactCore.Streaming.writeIndexFooter`,
  `CompactCore.Streaming.writeStreamHeader` — writing;
* `CompactCore.Streaming.readNextRecordFrom`, `CompactCore.Streaming.openFrame`,
  `CompactCore.Streaming.parseBlockPayload` — reading;
* `CompactCore.Streaming.Block` — a block, and `CompactCore.Streaming.blockLog`, the log of blocks
  that are numbered, and whose rows are counted, without gaps.

Main results:

* `CompactCore.Streaming.openFrame_ok` — opening a frame is exact;
* `CompactCore.Streaming.readNextRecordFrom_frame`,
  `CompactCore.Streaming.readNextRecordFrom_index`, `CompactCore.Streaming.readNextRecordFrom_eof` —
  what a record is.
-/

import CompactCore.Framing
import CompactCore.Wire.Log

set_option relaxedAutoImplicit false
set_option autoImplicit false

namespace CompactCore.Streaming

open Wire CompactError

/-! ### Metadata -/

/-- Metadata for one independently decodable streaming block. -/
structure BlockMetadata where
  blockIndex : UInt64
  encodedOffset : UInt64
  rowCount : UInt64
  uncompressedSize : UInt64
  compressedSize : UInt64
  checksum : UInt32
  deriving DecidableEq, Repr

/-- `b"BLK1"`. -/
def blockMagicV1 : List UInt8 := [0x42, 0x4c, 0x4b, 0x31]

/-- `b"IDX1"`. -/
def indexMagicV1 : List UInt8 := [0x49, 0x44, 0x58, 0x31]

def streamFlags : UInt8 := 0

def streamHeaderLen : ℕ := 10

def frameHeaderLen : ℕ := 18

def indexEntryLen : ℕ := 44

/-! ### Writing -/

def writeStreamHeader : List UInt8 := magicV2 ++ ([versionV2] ++ ([streamFlags] ++ le32 0))

def encodeBlockPayload (blockIndex firstRowIndex : UInt64) (rowCount rawSize : ℕ)
    (columnBlock : List UInt8) : Result (List UInt8) := do
  let rowCount ← tryU64 rowCount "row count is too large"
  let rawSize ← tryU64 rawSize "row group is too large"
  let columnBlockLen ← tryU64 columnBlock.length "column block is too large"
  return blockMagicV1 ++ (le64 blockIndex ++ (le64 firstRowIndex ++ (le64 rowCount ++
    (le64 rawSize ++ (le64 columnBlockLen ++ columnBlock)))))

def indexEntry (block : BlockMetadata) : List UInt8 :=
  le64 block.blockIndex ++ (le64 block.encodedOffset ++ (le64 block.rowCount ++
    (le64 block.uncompressedSize ++ (le64 block.compressedSize ++ le32 block.checksum))))

def writeIndexFooter (metadata : List BlockMetadata) : Result (List UInt8) := do
  let blockCount ← tryU64 metadata.length "block index has too many blocks"
  return indexMagicV1 ++ (le64 blockCount ++ metadata.flatMap indexEntry)

/-! ### Reading records -/

/-- `read_exact_invalid`. -/
def readExactInvalid (err : String) : ℕ → Reader CompactError (List UInt8) :=
  readExact (invalidInput err) (invalidInput err)

def validateStreamHeader : Reader CompactError Unit := do
  let header ← readExactInvalid "stream header is truncated" streamHeaderLen
  liftM (failIf (header.take 4 ≠ magicV2) (invalidInput "invalid stream magic"))
  liftM (failIf (header.getD 4 0 ≠ versionV2) (unsupported "stream version"))
  liftM (failIf (header.getD 5 0 ≠ 0) (unsupported "stream flags"))
  let extensionLen := u32OfLe ((header.drop 6).take 4)
  liftM (failIf (extensionLen ≠ 0) (unsupported "stream header extension"))

inductive StreamRecord
  | frame (frame : List UInt8)
  | index (index : List BlockMetadata)
  | eof
  deriving DecidableEq, Repr

/-- The next four bytes, or nothing at the end of the input. -/
def readNextMagic : Reader CompactError (Option (List UInt8)) := do
  let remaining ← Reader.remaining
  match remaining with
  | 0 => return none
  | _ + 1 => do
      let first ← readExactInvalid "frame or index header is truncated" 1
      let rest ← readExactInvalid "frame or index header is truncated" 3
      return some (first ++ rest)

/-- The fields of an index entry.  An entry has been read as a whole, so no field is cut off. -/
def parseIndexEntry (expectedIndex : ℕ) : Reader CompactError BlockMetadata := do
  let blockIndex ← readUInt64 (readExactInvalid "index block index is truncated")
  liftM (failIf (blockIndex ≠ UInt64.ofNat expectedIndex)
    (invalidInput "index block index is not sequential"))
  let encodedOffset ← readUInt64 (readExactInvalid "index block offset is truncated")
  let rowCount ← readUInt64 (readExactInvalid "index row count is truncated")
  let uncompressedSize ← readUInt64 (readExactInvalid "index raw size is truncated")
  let compressedSize ← readUInt64 (readExactInvalid "index compressed size is truncated")
  let checksum ← readUInt32 (readExactInvalid "index checksum is truncated")
  return ⟨blockIndex, encodedOffset, rowCount, uncompressedSize, compressedSize, checksum⟩

def readIndexEntries (expectedIndex : ℕ) : ℕ → Reader CompactError (List BlockMetadata)
  | 0 => return []
  | count + 1 => do
      let entry ← readExactInvalid "index entry is truncated" indexEntryLen
      let (block, _) ← liftM (parseIndexEntry expectedIndex entry 0)
      let blocks ← readIndexEntries (expectedIndex + 1) count
      return block :: blocks

def readIndexFooterAfterMagic : Reader CompactError (List BlockMetadata) := do
  let blockCount ← readUInt64 (readExactInvalid "index block count is truncated")
  let blockCount ← liftM (tryUsize blockCount "index block count is too large")
  liftM (failIf (maxStreamBlocks < blockCount)
    (invalidInput "index block count exceeds configured limit"))
  readIndexEntries 0 blockCount

/-- The frame whose magic has been read. -/
def readFrameAfterMagic (magic : List UInt8) : Reader CompactError (List UInt8) := do
  liftM (failIf (magic ≠ magicV1) (invalidInput "invalid frame magic"))
  let rest ← readExactInvalid "frame header is truncated" (frameHeaderLen - 4)
  let header := magic ++ rest
  let payloadLen := u64OfLe ((header.drop 6).take 8)
  let payloadLen ← liftM (tryUsize payloadLen "frame payload length is too large")
  liftM (failIf (maxEncodedBlockBytes < payloadLen)
    (invalidInput "frame payload length exceeds configured limit"))
  let _ ← liftM (okOr (invalidInput "frame length overflow") (usizeAdd frameHeaderLen payloadLen))
  let payload ← readExactInvalid "frame payload is truncated" payloadLen
  return header ++ payload

/-- The record whose magic has been read. -/
def readRecordAfterMagic : Option (List UInt8) → Reader CompactError StreamRecord
  | none => return .eof
  | some magic =>
      if magic = indexMagicV1 then do
        let index ← readIndexFooterAfterMagic
        return .index index
      else do
        let frame ← readFrameAfterMagic magic
        return .frame frame

def readNextRecordFrom : Reader CompactError StreamRecord := do
  let magic ← readNextMagic
  readRecordAfterMagic magic

def ensureReaderEof : Reader CompactError Unit := do
  let remaining ← Reader.remaining
  liftM (failIf (remaining ≠ 0) (invalidInput "stream has trailing bytes after footer index"))

/-! ### Reading blocks -/

structure ParsedBlockPayload where
  blockIndex : UInt64
  firstRowIndex : UInt64
  rowCount : ℕ
  rawSize : ℕ
  columnBlock : List UInt8
  deriving DecidableEq, Repr

/-- `read_slice`. -/
def readSlice (err : String) : ℕ → Reader CompactError (List UInt8) :=
  readExact (invalidInput "block payload length overflow") (invalidInput err)

def readBlockPayload : Reader CompactError ParsedBlockPayload := do
  let magic ← readSlice "block header is truncated" blockMagicV1.length
  liftM (failIf (magic ≠ blockMagicV1) (invalidInput "invalid block magic"))
  let blockIndex ← readUInt64 (readSlice "block index is truncated")
  let firstRowIndex ← readUInt64 (readSlice "block first row index is truncated")
  let rowCount ← readUInt64 (readSlice "block row count is truncated")
  let rowCount ← liftM (tryUsize rowCount "block row count is too large")
  let rawSize ← readUInt64 (readSlice "block raw size is truncated")
  let rawSize ← liftM (tryUsize rawSize "block raw size is too large")
  let columnBlockLen ← readUInt64 (readSlice "block column payload length is truncated")
  let columnBlockLen ← liftM (tryUsize columnBlockLen "block column payload length is too large")
  let columnBlock ← readSlice "block column payload is truncated" columnBlockLen
  return ⟨blockIndex, firstRowIndex, rowCount, rawSize, columnBlock⟩

def parseBlockPayload (payload : List UInt8) : Result ParsedBlockPayload := do
  let (parsed, cursor) ← readBlockPayload payload 0
  failIf (cursor ≠ payload.length) (invalidInput "block payload has trailing bytes")
  return parsed

section

variable [Crc32Fast]

/-- The payload of a block frame, and the fields of the block: what every reader does first with a
frame. -/
def openFrame (frame : List UInt8) : Result (List UInt8 × ParsedBlockPayload) := do
  let decoded ← Framing.decodeV1 frame
  failIf (decoded.codec ≠ .columnBlock)
    (invalidInput "stream block frame must use column block codec")
  let parsed ← parseBlockPayload decoded.payload
  return (decoded.payload, parsed)

/-- The metadata of a block that has been read at an offset. -/
def metadataOf (encodedOffset : UInt64) (frameLen : ℕ) (payload : List UInt8)
    (parsed : ParsedBlockPayload) : Result BlockMetadata := do
  let rowCount ← tryU64 parsed.rowCount "row count is too large"
  let uncompressedSize ← tryU64 parsed.rawSize "row group is too large"
  let compressedSize ← tryU64 frameLen "block frame is too large"
  return ⟨parsed.blockIndex, encodedOffset, rowCount, uncompressedSize, compressedSize,
    checksum payload⟩

end

/-! ### Blocks -/

/-- A block. -/
structure Block where
  blockIndex : UInt64
  firstRowIndex : UInt64
  rowCount : UInt64
  rawSize : UInt64
  columnBlock : List UInt8
  deriving DecidableEq, Repr

namespace Block

def payload (block : Block) : List UInt8 :=
  blockMagicV1 ++ (le64 block.blockIndex ++ (le64 block.firstRowIndex ++ (le64 block.rowCount ++
    (le64 block.rawSize ++ (le64 (UInt64.ofNat block.columnBlock.length) ++ block.columnBlock)))))

/-- The block as the parser returns it. -/
def parsed (block : Block) : ParsedBlockPayload :=
  ⟨block.blockIndex, block.firstRowIndex, block.rowCount.toNat, block.rawSize.toNat,
    block.columnBlock⟩

def frame [Crc32Fast] (block : Block) : List UInt8 :=
  Framing.encodeV1 .columnBlock block.payload

/-- The metadata of a block at an offset of the stream. -/
def metadata [Crc32Fast] (offset : ℕ) (block : Block) : BlockMetadata where
  blockIndex := block.blockIndex
  encodedOffset := UInt64.ofNat offset
  rowCount := block.rowCount
  uncompressedSize := block.rawSize
  compressedSize := UInt64.ofNat block.frame.length
  checksum := checksum block.payload

theorem length_payload (block : Block) : block.payload.length = 44 + block.columnBlock.length := by
  simp only [payload, blockMagicV1, List.length_append, List.length_cons, List.length_nil,
    length_le64]
  omega

theorem length_frame [Crc32Fast] (block : Block) :
    block.frame.length = frameHeaderLen + block.payload.length := Framing.length_encodeV1 ..

theorem frame_ne [Crc32Fast] (block : Block) : block.frame ≠ [] := by
  intro hnil
  have hlen := block.length_frame
  rw [hnil, frameHeaderLen, List.length_nil] at hlen
  omega

end Block

/-! ### Payloads are exact -/

/-- The fields of a payload, each at its offset. -/
theorem Block.at_payload {data : List UInt8} {c : ℕ} {block : Block} :
    At data c block.payload ↔ At data c blockMagicV1 ∧ At data (c + 4) (le64 block.blockIndex) ∧
      At data (c + 12) (le64 block.firstRowIndex) ∧ At data (c + 20) (le64 block.rowCount) ∧
      At data (c + 28) (le64 block.rawSize) ∧
      At data (c + 36) (le64 (UInt64.ofNat block.columnBlock.length)) ∧
      At data (c + 44) block.columnBlock := by
  simp only [Block.payload, at_append, length_le64, Nat.add_assoc,
    show blockMagicV1.length = 4 from rfl, Nat.reduceAdd]

/-- A payload field by field, with nothing behind its column block. -/
theorem Block.eq_payload_iff {payload columnBlock : List UInt8} (hfit : Fits payload)
    {index firstRow rowCount rawSize : UInt64} :
    payload = Block.payload ⟨index, firstRow, rowCount, rawSize, columnBlock⟩ ↔
      ∃ len : UInt64, At payload 0 blockMagicV1 ∧ At payload 4 (le64 index) ∧
        At payload 12 (le64 firstRow) ∧ At payload 20 (le64 rowCount) ∧
          At payload 28 (le64 rawSize) ∧
        At payload 36 (le64 len) ∧ At payload 44 columnBlock ∧ columnBlock.length = len.toNat ∧
        44 + len.toNat = payload.length := by
  constructor
  · intro h
    have hat := at_self payload
    have hlen : payload.length = 44 + columnBlock.length := by
      rw [h]
      exact Block.length_payload _
    nth_rewrite 2 [h] at hat
    rw [Block.at_payload] at hat
    obtain ⟨h₀, h₁, h₂, h₃, h₄, h₅, h₆⟩ := hat
    have hcount : (UInt64.ofNat columnBlock.length).toNat = columnBlock.length := by
      rw [Fits, wordSize] at hfit
      exact toNat_ofNat (by omega)
    simp only [Nat.zero_add] at h₁ h₂ h₃ h₄ h₅ h₆
    refine ⟨_, h₀, h₁, h₂, h₃, h₄, h₅, h₆, hcount.symm, ?_⟩
    rw [hcount]
    exact hlen.symm
  · rintro ⟨len, h₀, h₁, h₂, h₃, h₄, h₅, h₆, hlen, hend⟩
    have hcount : UInt64.ofNat columnBlock.length = len := (eq_ofNat hlen.symm).symm
    refine At.eq_self (Block.at_payload.2 ?_) ?_
    · simp only [Nat.zero_add, hcount]
      exact ⟨h₀, h₁, h₂, h₃, h₄, h₅, h₆⟩
    · rw [Block.length_payload]
      show payload.length = 44 + columnBlock.length
      rw [hlen, hend]

/-- **Parsing a payload is exact.** -/
theorem parseBlockPayload_ok {payload : List UInt8} {parsed : ParsedBlockPayload}
    (hfit : Fits payload) : parseBlockPayload payload = .ok parsed ↔
      ∃ block : Block, payload = block.payload ∧ parsed = block.parsed := by
  simp only [parseBlockPayload, readBlockPayload, readSlice, Reader.bind_ok, readUInt64_ok hfit,
    readExact_ok hfit, Reader.lift_ok, failIf_ok, not_not, tryUsize_eq, Except.ok.injEq,
    Reader.pure_ok, Prod.exists, bind_ok, pure_ok, and_assoc, exists_and_left, exists_eq_left,
    exists_eq_left', exists_const, show blockMagicV1.length = 4 from rfl, Nat.zero_add,
    Nat.reduceAdd]
  constructor
  · rintro ⟨_, cursor, ⟨magic, h₀, -, rfl, index, h₁, firstRow, h₂, rowCount, h₃, rawSize, h₄, len,
      h₅, columnBlock, h₆, hlen, rfl, rfl⟩, hend, rfl⟩
    exact ⟨_, (Block.eq_payload_iff hfit).2 ⟨len, h₀, h₁, h₂, h₃, h₄, h₅, h₆, hlen, hend⟩, rfl⟩
  · rintro ⟨block, hpayload, rfl⟩
    rcases (Block.eq_payload_iff hfit).1 hpayload with ⟨len, h₀, h₁, h₂, h₃, h₄, h₅, h₆, hlen, hend⟩
    exact ⟨_, _, ⟨_, h₀, rfl, rfl, _, h₁, _, h₂, _, h₃, _, h₄, _, h₅, _, h₆, hlen, rfl, rfl⟩, hend,
      rfl⟩

theorem encodeBlockPayload_ok {blockIndex firstRowIndex : UInt64} {rowCount rawSize : ℕ}
    {columnBlock payload : List UInt8} :
    encodeBlockPayload blockIndex firstRowIndex rowCount rawSize columnBlock = .ok payload ↔
      rowCount < 2 ^ 64 ∧ rawSize < 2 ^ 64 ∧ columnBlock.length < 2 ^ 64 ∧
        payload = Block.payload ⟨blockIndex, firstRowIndex, UInt64.ofNat rowCount,
          UInt64.ofNat rawSize, columnBlock⟩ := by
  simp only [encodeBlockPayload, bind_ok, tryU64_ok, pure_ok]
  constructor
  · intro h
    obtain ⟨rows, hrows, raw, hraw, len, hlen, rfl⟩ := h
    refine ⟨hrows ▸ rows.toNat_lt, hraw ▸ raw.toNat_lt, hlen ▸ len.toNat_lt, ?_⟩
    rw [Block.payload, ← eq_ofNat hrows, ← eq_ofNat hraw, ← eq_ofNat hlen]
  · intro h
    obtain ⟨hrows, hraw, hlen, rfl⟩ := h
    exact ⟨_, toNat_ofNat hrows, _, toNat_ofNat hraw, _, toNat_ofNat hlen, rfl⟩

section

variable [Crc32Fast]

/-- **Opening a frame is exact**: a frame opens precisely when it is the frame of a block. -/
theorem openFrame_ok {frame payload : List UInt8} {parsed : ParsedBlockPayload}
    (hfit : Fits frame) : openFrame frame = .ok (payload, parsed) ↔
      ∃ block : Block, frame = block.frame ∧ payload = block.payload ∧ parsed = block.parsed := by
  simp only [openFrame, bind_ok, Framing.decodeV1_ok hfit, failIf_ok, not_not, pure_ok,
    Prod.mk.injEq]
  constructor
  · intro h
    obtain ⟨⟨codec, payload'⟩, hframe, _, rfl, parsed', hparse, rfl, rfl⟩ := h
    have hfit' : Fits payload' := by
      have hlen : frame.length = Framing.headerLen + payload'.length := by
        rw [hframe]
        exact Framing.length_encodeV1 ..
      rw [Fits] at hfit ⊢
      omega
    obtain ⟨block, rfl, rfl⟩ := (parseBlockPayload_ok hfit').1 hparse
    exact ⟨block, hframe, rfl, rfl⟩
  · intro h
    obtain ⟨block, rfl, rfl, rfl⟩ := h
    have hfit' : Fits block.payload := by
      have hlen := block.length_frame
      rw [Fits] at hfit ⊢
      omega
    exact ⟨⟨.columnBlock, block.payload⟩, rfl, (), rfl, block.parsed,
      (parseBlockPayload_ok hfit').2 ⟨block, rfl, rfl⟩, rfl, rfl⟩

/-- The metadata of a block, as a reader builds it. -/
theorem metadataOf_ok {block : Block} {offset : UInt64} {n : ℕ} {metadata : BlockMetadata}
    (hoffset : offset.toNat = n) (hfit : Fits block.frame) :
    metadataOf offset block.frame.length block.payload block.parsed = .ok metadata ↔
      metadata = block.metadata n := by
  have hlen : (UInt64.ofNat block.frame.length).toNat = block.frame.length := toNat_ofNat hfit
  simp only [metadataOf, bind_ok, tryU64_ok, pure_ok, Block.parsed]
  constructor
  · intro h
    obtain ⟨rows, hrows, raw, hraw, size, hsize, rfl⟩ := h
    rw [Block.metadata, UInt64.toNat_inj.1 hrows, UInt64.toNat_inj.1 hraw, eq_ofNat hsize,
      eq_ofNat hoffset]
  · intro h
    refine ⟨block.rowCount, rfl, block.rawSize, rfl, _, hlen, ?_⟩
    rw [h, Block.metadata, eq_ofNat hoffset]

/-! ### The log of blocks -/

/-- The number of rows of some blocks. -/
def blockRows (blocks : List Block) : ℕ := (blocks.map fun block => block.rowCount.toNat).sum

omit [Crc32Fast] in
@[simp] theorem blockRows_append (blocks blocks' : List Block) :
    blockRows (blocks ++ blocks') = blockRows blocks + blockRows blocks' := by
  simp [blockRows]

omit [Crc32Fast] in
@[simp] theorem blockRows_singleton (block : Block) :
    blockRows [block] = block.rowCount.toNat := by
  simp [blockRows]

omit [Crc32Fast] in
theorem Block.payload_inj {block block' : Block} {data : List UInt8} {c : ℕ}
    (hlt : block.payload.length < 2 ^ 64) (hlt' : block'.payload.length < 2 ^ 64)
    (hat : At data c block.payload) (hat' : At data c block'.payload) : block = block' := by
  rw [Block.length_payload] at hlt hlt'
  obtain ⟨-, h₁, h₂, h₃, h₄, h₅, h₆⟩ := Block.at_payload.1 hat
  obtain ⟨-, h₁', h₂', h₃', h₄', h₅', h₆'⟩ := Block.at_payload.1 hat'
  have hlen := congrArg UInt64.toNat (le64_unique h₅ h₅')
  rw [toNat_ofNat (by omega), toNat_ofNat (by omega)] at hlen
  have hcolumn := h₆.eq_of_length h₆' hlen
  cases block
  cases block'
  simp only [Block.mk.injEq]
  exact ⟨le64_unique h₁ h₁', le64_unique h₂ h₂', le64_unique h₃ h₃', le64_unique h₄ h₄', hcolumn⟩

/-- The payload of a frame, behind its header. -/
theorem Block.at_frame {data : List UInt8} {c : ℕ} {block : Block} :
    At data c block.frame ↔ At data c (magicV1 ++ ([versionV1] ++
      [Framing.codecToId .columnBlock])) ∧
      At data (c + 6) (le64 (UInt64.ofNat block.payload.length)) ∧
      At data (c + 14) (le32 (checksum block.payload)) ∧ At data (c + 18) block.payload := by
  simp only [Block.frame, Framing.encodeV1, at_append, length_le64, length_le32, Nat.add_assoc,
    show magicV1.length = 4 from rfl, List.length_singleton, Nat.reduceAdd, and_assoc]

/-- The log of blocks that are numbered, and whose rows are counted, without gaps, and whose frames
the readers accept. -/
def blockLog : LogFormat Block where
  bytes := Block.frame
  Accepts blocks block := block.payload.length ≤ maxEncodedBlockBytes ∧
    block.blockIndex.toNat = blocks.length ∧ block.firstRowIndex.toNat = blockRows blocks
  bytes_ne _ := Block.frame_ne _
  unique := by
    intro data c blocks block block' h h' hat hat'
    have hmax : maxEncodedBlockBytes < 2 ^ 64 := by decide
    obtain ⟨-, hlen, -, hpayload⟩ := Block.at_frame.1 hat
    obtain ⟨-, hlen', -, hpayload'⟩ := Block.at_frame.1 hat'
    exact Block.payload_inj (lt_of_le_of_lt h.1 hmax) (lt_of_le_of_lt h'.1 hmax) hpayload hpayload'

@[simp] theorem blockLog_bytes (block : Block) : blockLog.bytes block = block.frame := rfl

/-- The metadata of blocks that follow each other from an offset. -/
def metadataFrom (offset : ℕ) : List Block → List BlockMetadata
  | [] => []
  | block :: blocks =>
      block.metadata offset :: metadataFrom (offset + block.frame.length) blocks

theorem metadataFrom_append (offset : ℕ) (blocks blocks' : List Block) :
    metadataFrom offset (blocks ++ blocks') = metadataFrom offset blocks ++
      metadataFrom (offset + (blockLog.flat blocks).length) blocks' := by
  induction blocks generalizing offset with
  | nil => rfl
  | cons block blocks ih =>
      rw [List.cons_append, metadataFrom, metadataFrom, ih, LogFormat.flat_cons,
        List.length_append, ← Nat.add_assoc, List.cons_append]
      rfl

@[simp] theorem length_metadataFrom (offset : ℕ) (blocks : List Block) :
    (metadataFrom offset blocks).length = blocks.length := by
  induction blocks generalizing offset with
  | nil => rfl
  | cons block blocks ih => rw [metadataFrom, List.length_cons, List.length_cons, ih]

end

/-! ### Records are exact -/

section

variable {data : List UInt8} {c c' : ℕ}

theorem readNextMagic_none (hfit : Fits data) :
    readNextMagic data c = .ok (none, c') ↔ data.length ≤ c ∧ c' = c := by
  simp only [readNextMagic, Reader.bind_ok, Reader.remaining_ok, and_assoc, exists_and_left,
    exists_eq_left']
  cases hrem : data.length - c with
  | zero =>
      simp only [Reader.pure_ok, true_and]
      constructor
      · intro h
        exact ⟨by omega, h.symm⟩
      · intro h
        exact h.2.symm
  | succ n =>
      simp only [readExactInvalid, Reader.bind_ok, readExact_ok hfit, Reader.pure_ok, reduceCtorEq,
        false_and, and_false, exists_const, false_iff]
      omega

theorem readNextMagic_some {magic : List UInt8} (hfit : Fits data) :
    readNextMagic data c = .ok (some magic, c') ↔
      At data c magic ∧ magic.length = 4 ∧ c' = c + 4 := by
  simp only [readNextMagic, Reader.bind_ok, Reader.remaining_ok, and_assoc, exists_and_left,
    exists_eq_left']
  cases hrem : data.length - c with
  | zero =>
      simp only [Reader.pure_ok, reduceCtorEq, false_and, false_iff]
      intro h
      obtain ⟨hat, hlen, -⟩ := h
      have := hat.le
      omega
  | succ n =>
      simp only [readExactInvalid, Reader.bind_ok, readExact_ok hfit, Reader.pure_ok, and_assoc,
        exists_and_left, exists_eq_left, Option.some.injEq]
      constructor
      · intro h
        obtain ⟨first, h₁, hlen₁, rest, h₂, hlen₂, rfl, hc⟩ := h
        refine ⟨at_append.2 ⟨h₁, by rwa [hlen₁]⟩, ?_, by omega⟩
        rw [List.length_append]
        omega
      · intro h
        obtain ⟨hat, hlen, rfl⟩ := h
        rw [← List.take_append_drop 1 magic, at_append] at hat
        have hlen₁ : (magic.take 1).length = 1 := by
          rw [List.length_take]
          omega
        rw [hlen₁] at hat
        exact ⟨_, hat.1, hlen₁, _, hat.2, by rw [List.length_drop]; omega,
          List.take_append_drop 1 magic, rfl⟩

theorem readRecordAfterMagic_index : readRecordAfterMagic (some indexMagicV1) =
    (do let index ← readIndexFooterAfterMagic; return .index index) := by
  rw [readRecordAfterMagic]
  exact if_pos rfl

theorem readRecordAfterMagic_frame {magic : List UInt8} (h : magic ≠ indexMagicV1) :
    readRecordAfterMagic (some magic) =
      (do let frame ← readFrameAfterMagic magic; return .frame frame) := if_neg h

/-- The end of a stream. -/
theorem readNextRecordFrom_eof (hfit : Fits data) :
    readNextRecordFrom data c = .ok (.eof, c') ↔ data.length ≤ c ∧ c' = c := by
  simp only [readNextRecordFrom, Reader.bind_ok]
  constructor
  · intro h
    obtain ⟨magic, c₁, hmagic, h⟩ := h
    cases magic with
    | none =>
        obtain ⟨hle, rfl⟩ := (readNextMagic_none hfit).1 hmagic
        exact ⟨hle, (Reader.pure_ok.1 h).2.symm⟩
    | some magic =>
        by_cases hindex : magic = indexMagicV1
        · subst hindex
          simp only [readRecordAfterMagic_index, Reader.bind_ok, Reader.pure_ok, reduceCtorEq,
            false_and, exists_false, and_false] at h
        · simp only [readRecordAfterMagic_frame hindex, Reader.bind_ok, Reader.pure_ok,
            reduceCtorEq, false_and, exists_false, and_false] at h
  · intro h
    obtain ⟨hle, rfl⟩ := h
    exact ⟨none, c', (readNextMagic_none hfit).2 ⟨hle, rfl⟩, Reader.pure_ok.2 ⟨rfl, rfl⟩⟩

/-- Reading a frame behind its magic is exact. -/
theorem readFrameAfterMagic_ok {magic frame : List UInt8} (hfit : Fits data) :
    readFrameAfterMagic magic data c = .ok (frame, c') ↔
      magic = magicV1 ∧ ∃ rest payload, At data c rest ∧ rest.length = 14 ∧
        At data (c + 14) payload ∧
        (u64OfLe (((magicV1 ++ rest).drop 6).take 8)).toNat = payload.length ∧
        payload.length ≤ maxEncodedBlockBytes ∧ frame = magicV1 ++ rest ++ payload ∧
        c' = c + 14 + payload.length := by
  have hmax : frameHeaderLen + maxEncodedBlockBytes < wordSize := by decide
  simp only [readFrameAfterMagic, readExactInvalid, Reader.bind_ok, Reader.lift_ok, failIf_ok,
    not_not, not_lt, readExact_ok hfit, tryUsize_eq, okOr_ok, usizeAdd_eq_some, Except.ok.injEq,
    Reader.pure_ok, show frameHeaderLen - 4 = 14 from rfl]
  constructor
  · intro h
    obtain ⟨_, _, ⟨rfl, rfl⟩, rest, _, ⟨h₁, hlen₁, rfl⟩, n, _, ⟨rfl, rfl⟩, _, _, ⟨hle, rfl⟩, _, _,
      ⟨-, rfl⟩, payload, _, ⟨h₂, hlen₂, rfl⟩, rfl, rfl⟩ := h
    exact ⟨rfl, rest, payload, h₁, hlen₁, h₂, hlen₂.symm, hlen₂ ▸ hle, rfl, by rw [hlen₂]⟩
  · intro h
    obtain ⟨rfl, rest, payload, h₁, hlen₁, h₂, hlen₂, hle, rfl, rfl⟩ := h
    exact ⟨(), c, ⟨rfl, rfl⟩, rest, c + 14, ⟨h₁, hlen₁, rfl⟩, payload.length, c + 14, ⟨hlen₂, rfl⟩,
      (), c + 14, ⟨hle, rfl⟩, frameHeaderLen + payload.length, c + 14, ⟨⟨by omega, rfl⟩, rfl⟩,
      payload, c + 14 + payload.length, ⟨h₂, rfl, rfl⟩, rfl, rfl⟩

/-- The frame of a record lies where the record starts. -/
theorem readNextRecordFrom_frame {frame : List UInt8} (hfit : Fits data)
    (h : readNextRecordFrom data c = .ok (.frame frame, c')) :
    At data c frame ∧ c' = c + frame.length ∧
      frame.length ≤ frameHeaderLen + maxEncodedBlockBytes ∧ frameHeaderLen ≤ frame.length := by
  simp only [readNextRecordFrom, Reader.bind_ok] at h
  obtain ⟨magic, c₁, hmagic, h⟩ := h
  cases magic with
  | none => simp [readRecordAfterMagic] at h
  | some magic =>
      obtain ⟨h₀, hlen₀, rfl⟩ := (readNextMagic_some hfit).1 hmagic
      by_cases hindex : magic = indexMagicV1
      · subst hindex
        simp only [readRecordAfterMagic_index, Reader.bind_ok, Reader.pure_ok, reduceCtorEq,
          false_and, exists_false, and_false] at h
      · simp only [readRecordAfterMagic_frame hindex, Reader.bind_ok, Reader.pure_ok,
          StreamRecord.frame.injEq, readFrameAfterMagic_ok hfit] at h
        obtain ⟨_, _, ⟨rfl, rest, payload, h₁, hlen₁, h₂, -, hmax, rfl, rfl⟩, rfl, rfl⟩ := h
        simp only [List.length_append, frameHeaderLen, hlen₀, hlen₁]
        refine ⟨?_, by omega, by omega, by omega⟩
        rw [at_append, at_append, List.length_append, hlen₀, hlen₁]
        exact ⟨⟨h₀, h₁⟩, h₂⟩

/-- A block frame is read as a record. -/
theorem readNextRecordFrom_block [Crc32Fast] {block : Block} (hfit : Fits data)
    (hmax : block.payload.length ≤ maxEncodedBlockBytes) (hat : At data c block.frame) :
    readNextRecordFrom data c = .ok (.frame block.frame, c + block.frame.length) := by
  have hword : maxEncodedBlockBytes < 2 ^ 64 := by decide
  have hlen := block.length_frame
  have hcount : (UInt64.ofNat block.payload.length).toNat = block.payload.length :=
    toNat_ofNat (by omega)
  -- the header behind the magic
  obtain ⟨rest, hrestLen, hfield, hsplit⟩ : ∃ rest, rest.length = 14 ∧
      ((magicV1 ++ rest).drop 6).take 8 = le64 (UInt64.ofNat block.payload.length) ∧
      block.frame = magicV1 ++ rest ++ block.payload := by
    refine ⟨[versionV1] ++ ([Framing.codecToId .columnBlock] ++
      (le64 (UInt64.ofNat block.payload.length) ++ le32 (checksum block.payload))), by simp,
      List.take_left' (length_le64 _), ?_⟩
    simp [Block.frame, Framing.encodeV1]
  rw [hsplit, at_append, at_append, List.length_append, hrestLen] at hat
  obtain ⟨⟨h₀, h₁⟩, h₂⟩ := hat
  simp only [readNextRecordFrom, Reader.bind_ok]
  refine ⟨some magicV1, c + 4, (readNextMagic_some hfit).2 ⟨h₀, rfl, rfl⟩, ?_⟩
  simp only [readRecordAfterMagic_frame (show magicV1 ≠ indexMagicV1 by decide), Reader.bind_ok,
    Reader.pure_ok, StreamRecord.frame.injEq, readFrameAfterMagic_ok hfit]
  refine ⟨_, _, ⟨trivial, rest, block.payload, h₁, hrestLen, h₂, ?_, hmax, rfl, rfl⟩, hsplit.symm,
    ?_⟩
  · rw [hfield, u64OfLe_le64, hcount]
  · rw [hlen, frameHeaderLen]
    omega

/-- **Frames at the next record** are the frames of blocks of the log. -/
theorem openFrame_record [Crc32Fast] {frame payload : List UInt8} {parsed : ParsedBlockPayload}
    (hfit : Fits data) (hrecord : readNextRecordFrom data c = .ok (.frame frame, c'))
    (hopen : openFrame frame = .ok (payload, parsed)) :
    ∃ block : Block, frame = block.frame ∧ payload = block.payload ∧ parsed = block.parsed ∧
      block.payload.length ≤ maxEncodedBlockBytes ∧ At data c block.frame ∧
      c' = c + block.frame.length := by
  obtain ⟨hat, rfl, hmax, -⟩ := readNextRecordFrom_frame hfit hrecord
  have hfit' : Fits frame := by
    have hle := hat.le
    rw [Fits] at hfit ⊢
    omega
  obtain ⟨block, rfl, rfl, rfl⟩ := (openFrame_ok hfit').1 hopen
  refine ⟨block, rfl, rfl, rfl, ?_, hat, rfl⟩
  rw [block.length_frame] at hmax
  omega

/-! ### Footers are exact -/

/-- Index entries are numbered from an index on. -/
def IndexedFrom (index : ℕ) : List BlockMetadata → Prop
  | [] => True
  | block :: blocks => block.blockIndex = UInt64.ofNat index ∧ IndexedFrom (index + 1) blocks

/-- The bytes of a footer. -/
def indexFooter (metadata : List BlockMetadata) : List UInt8 :=
  indexMagicV1 ++ (le64 (UInt64.ofNat metadata.length) ++ metadata.flatMap indexEntry)

theorem writeIndexFooter_ok {metadata : List BlockMetadata} {footer : List UInt8} :
    writeIndexFooter metadata = .ok footer ↔
      metadata.length < 2 ^ 64 ∧ footer = indexFooter metadata := by
  simp only [writeIndexFooter, bind_ok, tryU64_ok, pure_ok]
  constructor
  · intro h
    obtain ⟨count, hcount, rfl⟩ := h
    exact ⟨hcount ▸ count.toNat_lt, by rw [indexFooter, eq_ofNat hcount]⟩
  · intro h
    exact ⟨_, toNat_ofNat h.1, h.2.symm⟩

theorem length_indexEntry (block : BlockMetadata) :
    (indexEntry block).length = indexEntryLen := by
  simp [indexEntry, indexEntryLen]

theorem length_indexFooter (metadata : List BlockMetadata) :
    (indexFooter metadata).length = 12 + metadata.length * indexEntryLen := by
  have hentries : (metadata.flatMap indexEntry).length = metadata.length * indexEntryLen := by
    induction metadata with
    | nil => rfl
    | cons block metadata ih =>
        rw [List.flatMap_cons, List.length_append, ih, length_indexEntry, List.length_cons,
          Nat.succ_mul, Nat.add_comm]
  rw [indexFooter, List.length_append, List.length_append, length_le64, hentries, ← Nat.add_assoc]
  rfl

/-- Parsing an index entry is exact. -/
theorem parseIndexEntry_ok {index : ℕ} {entry : List UInt8} {block : BlockMetadata}
    (hlen : entry.length = indexEntryLen) :
    (∃ n, parseIndexEntry index entry 0 = .ok (block, n)) ↔
      entry = indexEntry block ∧ block.blockIndex = UInt64.ofNat index := by
  have hfit : Fits entry := by
    rw [Fits, hlen, wordSize, indexEntryLen]
    omega
  simp only [parseIndexEntry, readExactInvalid, Reader.bind_ok, readUInt64_ok hfit,
    readUInt32_ok hfit, Reader.lift_ok, failIf_ok, not_not, Reader.pure_ok, and_assoc,
    exists_and_left, exists_eq_left, exists_eq_left', exists_const]
  constructor
  · intro h
    obtain ⟨n, blockIndex, h₀, hindex, offset, h₁, rows, h₂, raw, h₃, size, h₄, crc, h₅, rfl, -⟩ :=
      h
    refine ⟨At.eq_self ?_ (by rw [hlen, length_indexEntry]), hindex⟩
    simp only [indexEntry, at_append, length_le64]
    exact ⟨h₀, h₁, h₂, h₃, h₄, h₅⟩
  · intro h
    obtain ⟨rfl, hindex⟩ := h
    have hat := at_self (indexEntry block)
    simp only [indexEntry, at_append, length_le64] at hat
    obtain ⟨h₀, h₁, h₂, h₃, h₄, h₅⟩ := hat
    exact ⟨_, _, h₀, hindex, _, h₁, _, h₂, _, h₃, _, h₄, _, h₅, rfl, rfl⟩

theorem readIndexEntries_ok {index n : ℕ} {blocks : List BlockMetadata} (hfit : Fits data)
    (hc : c ≤ data.length) : readIndexEntries index n data c = .ok (blocks, c') ↔
      blocks.length = n ∧ IndexedFrom index blocks ∧ At data c (blocks.flatMap indexEntry) ∧
        c' = c + (blocks.flatMap indexEntry).length := by
  induction n generalizing index blocks c c' with
  | zero =>
      simp only [readIndexEntries, Reader.pure_ok, List.length_eq_zero_iff]
      constructor
      · intro h
        obtain ⟨rfl, rfl⟩ := h
        exact ⟨rfl, trivial, at_nil.2 hc, rfl⟩
      · intro h
        obtain ⟨rfl, -, -, rfl⟩ := h
        exact ⟨rfl, rfl⟩
  | succ n ih =>
      simp only [readIndexEntries, readExactInvalid, Reader.bind_ok, readExact_ok hfit,
        Reader.lift_ok, Reader.pure_ok, Prod.exists]
      constructor
      · intro h
        obtain ⟨entry, _, ⟨hat, hlen, rfl⟩, block, k, _, ⟨hparse, rfl⟩, rest, c₂, hrest, rfl,
          rfl⟩ := h
        obtain ⟨rfl, hindex⟩ := (parseIndexEntry_ok hlen).1 ⟨k, hparse⟩
        have hle := hat.le
        rw [hlen] at hle
        obtain ⟨hcount, hindexed, hatRest, rfl⟩ := (ih hle).1 hrest
        rw [← hlen] at hatRest
        refine ⟨by rw [List.length_cons, hcount], ⟨hindex, hindexed⟩, ?_, ?_⟩
        · rw [List.flatMap_cons, at_append]
          exact ⟨hat, hatRest⟩
        · rw [List.flatMap_cons, List.length_append, hlen, Nat.add_assoc]
      · intro h
        obtain ⟨hcount, hindexed, hat, rfl⟩ := h
        cases blocks with
        | nil => cases hcount
        | cons block blocks =>
            rw [List.flatMap_cons, at_append] at hat
            have hlen := length_indexEntry block
            have hle := hat.1.le
            rw [hlen] at hat hle
            obtain ⟨k, hparse⟩ := (parseIndexEntry_ok hlen).2 ⟨rfl, hindexed.1⟩
            have hrest := (ih hle).2 ⟨Nat.succ_injective hcount, hindexed.2, hat.2, rfl⟩
            refine ⟨_, _, ⟨hat.1, hlen, rfl⟩, block, k, _, ⟨hparse, rfl⟩, blocks, _, hrest, rfl, ?_⟩
            rw [List.flatMap_cons, List.length_append, hlen, Nat.add_assoc]

/-- **A footer is read exactly.** -/
theorem readNextRecordFrom_index {blocks : List BlockMetadata} (hfit : Fits data) :
    readNextRecordFrom data c = .ok (.index blocks, c') ↔
      blocks.length ≤ maxStreamBlocks ∧ IndexedFrom 0 blocks ∧ At data c (indexFooter blocks) ∧
        c' = c + (indexFooter blocks).length := by
  have hmax : maxStreamBlocks < 2 ^ 64 := by decide
  simp only [readNextRecordFrom, Reader.bind_ok]
  constructor
  · intro h
    obtain ⟨magic, c₁, hmagic, h⟩ := h
    cases magic with
    | none => simp [readRecordAfterMagic] at h
    | some magic =>
        obtain ⟨h₀, hlen₀, rfl⟩ := (readNextMagic_some hfit).1 hmagic
        by_cases heq : magic = indexMagicV1
        · subst heq
          simp only [readRecordAfterMagic_index, readIndexFooterAfterMagic, readExactInvalid,
            Reader.bind_ok, readUInt64_ok hfit, Reader.lift_ok, tryUsize_eq, Except.ok.injEq,
            failIf_ok, not_lt, Reader.pure_ok, StreamRecord.index.injEq] at h
          obtain ⟨index, _, ⟨count, _, ⟨h₁, rfl⟩, _, _, ⟨rfl, rfl⟩, _, _, ⟨hle, rfl⟩, hindex⟩, rfl,
            rfl⟩ := h
          obtain ⟨hcount, hindexed, h₂, rfl⟩ := (readIndexEntries_ok hfit (by
            have := h₁.le
            rwa [length_le64] at this)).1 hindex
          have hword : UInt64.ofNat index.length = count := (eq_ofNat hcount.symm).symm
          refine ⟨by omega, hindexed, ?_, ?_⟩
          · rw [indexFooter, at_append, at_append, hword, length_le64]
            exact ⟨h₀, h₁, h₂⟩
          · rw [indexFooter, List.length_append, List.length_append, length_le64,
              show indexMagicV1.length = 4 from rfl]
            omega
        · simp only [readRecordAfterMagic_frame heq, Reader.bind_ok, Reader.pure_ok, reduceCtorEq,
            false_and, exists_false, and_false] at h
  · intro h
    obtain ⟨hle, hindexed, hat, rfl⟩ := h
    rw [indexFooter, at_append, at_append, length_le64] at hat
    obtain ⟨h₀, h₁, h₂⟩ := hat
    refine ⟨some indexMagicV1, c + 4, (readNextMagic_some hfit).2 ⟨h₀, rfl, rfl⟩, ?_⟩
    rw [readRecordAfterMagic_index]
    have hcount : (UInt64.ofNat blocks.length).toNat = blocks.length := toNat_ofNat (by omega)
    have hentries := (readIndexEntries_ok hfit (by
      have := h₂.le
      omega)).2 ⟨rfl, hindexed, h₂, rfl⟩
    simp only [readIndexFooterAfterMagic, readExactInvalid, Reader.bind_ok, readUInt64_ok hfit,
      Reader.lift_ok, tryUsize_eq, Except.ok.injEq, failIf_ok, not_lt, Reader.pure_ok,
      StreamRecord.index.injEq]
    refine ⟨blocks, _, ⟨_, _, ⟨h₁, rfl⟩, _, _, ⟨hcount, rfl⟩, (), _, ⟨hle, rfl⟩, hentries⟩, rfl, ?_⟩
    rw [indexFooter, List.length_append, List.length_append, length_le64,
      show indexMagicV1.length = 4 from rfl]
    omega

/-! ### Headers and ends -/

/-- **The header check is exact.** -/
theorem validateStreamHeader_ok {u : Unit} (hfit : Fits data) :
    validateStreamHeader data c = .ok (u, c') ↔
      At data c writeStreamHeader ∧ c' = c + streamHeaderLen := by
  simp only [validateStreamHeader, readExactInvalid, Reader.bind_ok, readExact_ok hfit,
    Reader.lift_ok, failIf_ok, not_not]
  constructor
  · intro h
    obtain ⟨header, _, ⟨hat, hlen, rfl⟩, _, _, ⟨hmagic, rfl⟩, _, _, ⟨hversion, rfl⟩, _, _,
      ⟨hflags, rfl⟩, hext, rfl⟩ := h
    have hten : header.length = 10 := hlen
    have h₀ : At header 0 magicV2 := at_of_slice (by rw [hten]; decide) hmagic
    have h₄ : At header 4 [versionV2] := at_of_getD (by omega) hversion
    have h₅ : At header 5 [streamFlags] := at_of_getD (by omega) hflags
    have h₆ : At header 6 (le32 0) := by
      rw [← hext, le32_u32OfLe (by rw [List.length_take, List.length_drop]; omega)]
      exact at_take_drop (by omega)
    have heq : header = writeStreamHeader := by
      refine At.eq_self ?_ (hten.trans (by rfl))
      rw [writeStreamHeader, at_append, at_append, at_append]
      exact ⟨h₀, h₄, h₅, h₆⟩
    rw [← heq]
    exact ⟨hat, rfl⟩
  · intro h
    obtain ⟨hat, rfl⟩ := h
    exact ⟨writeStreamHeader, _, ⟨hat, rfl, rfl⟩, (), _, ⟨by decide, rfl⟩, (), _,
      ⟨by decide, rfl⟩, (), _, ⟨by decide, rfl⟩, by decide, rfl⟩

theorem ensureReaderEof_ok {u : Unit} :
    ensureReaderEof data c = .ok (u, c') ↔ data.length ≤ c ∧ c' = c := by
  simp only [ensureReaderEof, Reader.bind_ok, Reader.remaining_ok, Reader.lift_ok, failIf_ok,
    not_not]
  constructor
  · intro h
    obtain ⟨_, _, ⟨rfl, rfl⟩, hzero, rfl⟩ := h
    exact ⟨by omega, rfl⟩
  · intro h
    obtain ⟨hle, rfl⟩ := h
    exact ⟨_, _, ⟨rfl, rfl⟩, by omega, rfl⟩

/-- The metadata of a log is numbered. -/
theorem indexedFrom_metadata [Crc32Fast] {done blocks : List Block}
    (h : blockLog.Chain done blocks) (offset : ℕ) :
    IndexedFrom done.length (metadataFrom offset blocks) := by
  induction blocks generalizing done offset with
  | nil => trivial
  | cons block blocks ih =>
      obtain ⟨⟨-, hindex, -⟩, hrest⟩ := h
      have hnext := ih hrest (offset + block.frame.length)
      rw [List.length_append, List.length_singleton] at hnext
      exact ⟨eq_ofNat hindex, hnext⟩

end

end CompactCore.Streaming
