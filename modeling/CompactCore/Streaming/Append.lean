/-
**Append logs.**

An append log is a stream without a footer.  It is recovered by scanning its frames up to the first
one that is partial or damaged, and a writer goes on behind the blocks that are recovered.  The scan
has a parser of its own for frames and payloads; it accepts what the stream readers accept, up to a
number of blocks.

Main definitions:

* `CompactCore.Streaming.recoverAppendStream`, `CompactCore.Streaming.appendJsonlStream`,
  `CompactCore.Streaming.replayJsonlAppendStream` — the operations.

Main results:

* `CompactCore.Streaming.recoverRecord_eq_some` — **the scan accepts the frames of the log**;
* `CompactCore.Streaming.recoverAppendStream_ok` — what is recovered, and when recovery fails;
* `CompactCore.Streaming.appendJsonlStream_ok` — **what an append writes**.
-/

import CompactCore.Streaming.Inspect
import CompactCore.Streaming.Reader
import CompactCore.Streaming.Writer
import Mathlib.Data.Option.Basic

set_option relaxedAutoImplicit false
set_option autoImplicit false

namespace CompactCore.Streaming

open Wire CompactError Io

/-! ### Recovering -/

/-- Recovery result for an append stream. -/
structure AppendRecovery where
  validLen : UInt64
  blocks : List BlockMetadata
  totalRows : UInt64
  totalUncompressedSize : UInt64
  totalCompressedSize : UInt64
  truncatedOrCorruptTail : Bool
  deriving DecidableEq, Repr

def emptyCorruptRecovery : AppendRecovery := ⟨0, [], 0, 0, 0, true⟩

structure AppendBlockPayload where
  blockIndex : UInt64
  firstRowIndex : UInt64
  rowCount : UInt64
  rawSize : UInt64
  deriving DecidableEq, Repr

/-- `read_slice` of this scan. -/
def readAppendSlice : ℕ → Reader CompactError (List UInt8) :=
  readExact (invalidInput "append block length overflow") (invalidInput "append block is truncated")

def readAppendBlockPayload : Reader CompactError AppendBlockPayload := do
  let magic ← readAppendSlice blockMagicV1.length
  liftM (failIf (magic ≠ blockMagicV1) (invalidInput "invalid block magic"))
  let blockIndex ← readUInt64 readAppendSlice
  let firstRowIndex ← readUInt64 readAppendSlice
  let rowCount ← readUInt64 readAppendSlice
  let rawSize ← readUInt64 readAppendSlice
  let columnBlockLen ← readUInt64 readAppendSlice
  let columnBlockLen ← liftM (tryUsize columnBlockLen "block column payload length is too large")
  let _ ← readAppendSlice columnBlockLen
  return ⟨blockIndex, firstRowIndex, rowCount, rawSize⟩

def parseAppendBlockPayload (payload : List UInt8) : Result AppendBlockPayload := do
  let (parsed, cursor) ← readAppendBlockPayload payload 0
  failIf (cursor ≠ payload.length) (invalidInput "block payload has trailing bytes")
  return parsed

/-- `data.get(start..start + len)`. -/
def slice (data : List UInt8) (start len : ℕ) : Option (List UInt8) :=
  if start + len ≤ data.length then some ((data.drop start).take len) else none

structure RecoverState where
  cursor : ℕ
  blocks : List BlockMetadata
  expectedBlockIndex : UInt64
  expectedFirstRowIndex : UInt64
  truncatedOrCorruptTail : Bool
  deriving DecidableEq, Repr

section

variable [Crc32Fast]

/-- The record at the cursor: its length, its payload, and the fields of its block.  There is none
where the scan sets the tail apart. -/
def recoverRecord (data : List UInt8) (s : RecoverState) :
    Option (ℕ × List UInt8 × AppendBlockPayload) := do
  let header ← slice data s.cursor frameHeaderLen
  guard (header.take 4 = magicV1)
  -- on a 64-bit machine the length is a `usize`
  let payloadLen := (u64OfLe ((header.drop 6).take 8)).toNat
  guard (¬(maxEncodedBlockBytes < payloadLen ∨ maxStreamBlocks ≤ s.blocks.length))
  let recordLen ← usizeAdd frameHeaderLen payloadLen
  let frame ← slice data s.cursor recordLen
  let decoded ← (Framing.decodeV1 frame).toOption
  guard (decoded.codec = .columnBlock)
  let parsed ← (parseAppendBlockPayload decoded.payload).toOption
  guard (parsed.blockIndex = s.expectedBlockIndex ∧ parsed.firstRowIndex = s.expectedFirstRowIndex)
  return (recordLen, decoded.payload, parsed)

/-- The state behind a record. -/
def RecoverState.push (s : RecoverState) (recordLen : ℕ) (payload : List UInt8)
    (parsed : AppendBlockPayload) : Result RecoverState := do
  let expectedBlockIndex ← okOr (invalidInput "append block index overflow")
    (checkedAdd s.expectedBlockIndex 1)
  let expectedFirstRowIndex ← okOr (invalidInput "append row count overflow")
    (checkedAdd s.expectedFirstRowIndex parsed.rowCount)
  let cursor ← okOr (invalidInput "append offset overflow") (usizeAdd s.cursor recordLen)
  return ⟨cursor, s.blocks ++ [⟨parsed.blockIndex, UInt64.ofNat s.cursor, parsed.rowCount,
    parsed.rawSize, UInt64.ofNat recordLen, checksum payload⟩], expectedBlockIndex,
    expectedFirstRowIndex, s.truncatedOrCorruptTail⟩

/-- One round of the scan.  Where the source breaks out of its loop it has set the flag, at which
the next round stops. -/
def recoverStep (data : List UInt8) (s : RecoverState) : Result (Option RecoverState) :=
  if s.truncatedOrCorruptTail ∨ data.length ≤ s.cursor then .ok none
  else
    match recoverRecord data s with
    | none => .ok (some { s with truncatedOrCorruptTail := true })
    | some (recordLen, payload, parsed) => some <$> s.push recordLen payload parsed

/-- A round takes bytes from the input, or sets the flag. -/
def RecoverState.measure (data : List UInt8) (s : RecoverState) : ℕ :=
  2 * (data.length - s.cursor) + if s.truncatedOrCorruptTail then 0 else 1

omit [Crc32Fast] in
theorem slice_eq_some {data bs : List UInt8} {start len : ℕ} :
    slice data start len = some bs ↔ At data start bs ∧ bs.length = len := by
  unfold slice
  split
  · rename_i h
    rw [Option.some.injEq]
    constructor
    · intro heq
      rw [← heq]
      refine ⟨at_take_drop h, ?_⟩
      rw [List.length_take, List.length_drop]
      omega
    · intro heq
      rw [← heq.2]
      exact heq.1.slice
  · rename_i h
    simp only [reduceCtorEq, false_iff]
    intro heq
    have hle := heq.1.le
    omega

theorem recoverRecord_pos {data payload : List UInt8} {s : RecoverState} {recordLen : ℕ}
    {parsed : AppendBlockPayload} (h : recoverRecord data s = some (recordLen, payload, parsed)) :
    0 < recordLen := by
  simp only [recoverRecord, Option.bind_eq_bind, Option.bind_eq_some_iff, usizeAdd_eq_some,
    Option.pure_def, Option.some.injEq, Prod.mk.injEq] at h
  obtain ⟨_, _, _, _, _, _, _, ⟨-, rfl⟩, _, _, _, _, _, _, _, _, _, _, rfl, -⟩ := h
  exact Nat.lt_of_lt_of_le (by decide) (Nat.le_add_right ..)

/-- The block as the parser of this scan returns it. -/
def Block.appendParsed (block : Block) : AppendBlockPayload :=
  ⟨block.blockIndex, block.firstRowIndex, block.rowCount, block.rawSize⟩

omit [Crc32Fast] in
/-- **The second payload parser accepts what the first one does.** -/
theorem parseAppendBlockPayload_ok {payload : List UInt8} {parsed : AppendBlockPayload}
    (hfit : Fits payload) : parseAppendBlockPayload payload = .ok parsed ↔
      ∃ block : Block, payload = block.payload ∧ parsed = block.appendParsed := by
  simp only [parseAppendBlockPayload, readAppendBlockPayload, readAppendSlice, Reader.bind_ok,
    readUInt64_ok hfit, readExact_ok hfit, Reader.lift_ok, failIf_ok, not_not, tryUsize_eq,
    Except.ok.injEq, Reader.pure_ok, Prod.exists, bind_ok, pure_ok, and_assoc, exists_and_left,
    exists_eq_left, exists_eq_left', exists_const, show blockMagicV1.length = 4 from rfl,
    Nat.zero_add, Nat.reduceAdd]
  constructor
  · rintro ⟨_, cursor, ⟨magic, h₀, -, rfl, index, h₁, firstRow, h₂, rowCount, h₃, rawSize, h₄, len,
      h₅, columnBlock, h₆, hlen, rfl, rfl⟩, hend, rfl⟩
    exact ⟨_, (Block.eq_payload_iff hfit).2 ⟨len, h₀, h₁, h₂, h₃, h₄, h₅, h₆, hlen, hend⟩, rfl⟩
  · rintro ⟨block, hpayload, rfl⟩
    rcases (Block.eq_payload_iff hfit).1 hpayload with ⟨len, h₀, h₁, h₂, h₃, h₄, h₅, h₆, hlen, hend⟩
    exact ⟨_, _, ⟨_, h₀, rfl, rfl, _, h₁, _, h₂, _, h₃, _, h₄, _, h₅, _, h₆, hlen, rfl, rfl⟩, hend,
      rfl⟩

/-- The header of a frame that is there. -/
theorem Block.frame_header {data : List UInt8} {c : ℕ} {block : Block}
    (hmax : block.payload.length ≤ maxEncodedBlockBytes) (hat : At data c block.frame) :
    ∃ header, At data c header ∧ header.length = frameHeaderLen ∧ header.take 4 = magicV1 ∧
      (u64OfLe ((header.drop 6).take 8)).toNat = block.payload.length := by
  have hword : maxEncodedBlockBytes < 2 ^ 64 := by decide
  have hsplit := List.take_append_drop frameHeaderLen block.frame
  have hself := at_self block.frame
  have hlen : (block.frame.take frameHeaderLen).length = frameHeaderLen := by
    rw [List.length_take, block.length_frame]
    omega
  rw [← hsplit, at_append] at hat
  obtain ⟨h₀, h₁, -, -⟩ := Block.at_frame.1 hself
  have h₀' := (at_append.1 h₀).1.take (n := frameHeaderLen) (by decide)
  have h₁' := h₁.take (n := frameHeaderLen) (by rw [length_le64, frameHeaderLen]; omega)
  refine ⟨_, hat.1, hlen, ?_, ?_⟩
  · exact h₀'.slice
  · have hfield := h₁'.slice
    rw [length_le64, Nat.zero_add] at hfield
    rw [hfield, u64OfLe_le64, toNat_ofNat (by omega)]

/-- **The scan accepts the frames of the log**, up to the number of blocks. -/
theorem recoverRecord_eq_some {data payload : List UInt8} {s : RecoverState} {recordLen : ℕ}
    {parsed : AppendBlockPayload} (hfit : Fits data) :
    recoverRecord data s = some (recordLen, payload, parsed) ↔
      ∃ block : Block, At data s.cursor block.frame ∧
        block.payload.length ≤ maxEncodedBlockBytes ∧ s.blocks.length < maxStreamBlocks ∧
        block.blockIndex = s.expectedBlockIndex ∧
        block.firstRowIndex = s.expectedFirstRowIndex ∧ recordLen = block.frame.length ∧
        payload = block.payload ∧ parsed = block.appendParsed := by
  simp only [recoverRecord, Option.bind_eq_bind, Option.bind_eq_some_iff, Option.guard_eq_some',
    slice_eq_some, usizeAdd_eq_some, toOption_eq_some, Option.pure_def, Option.some.injEq, not_or,
    not_lt, not_le, Prod.mk.injEq]
  constructor
  · intro h
    obtain ⟨header, _, _, -, _, ⟨hmax, hcount⟩, _, ⟨-, rfl⟩, frame, ⟨hat, hlen⟩, ⟨codec, payload'⟩,
      hdecode, _, rfl, parsed', hparse, _, ⟨hindex, hfirst⟩, rfl, rfl, rfl⟩ := h
    have hfit' : Fits frame := lt_of_le_of_lt (by have := hat.le; omega) hfit
    have hframe := (Framing.decodeV1_ok hfit').1 hdecode
    have hframeLen := Framing.length_encodeV1 .columnBlock payload'
    rw [hframe, hframeLen] at hlen
    have hpayload : payload'.length ≤ maxEncodedBlockBytes := by
      rw [← Nat.add_left_cancel hlen] at hmax
      exact hmax
    obtain ⟨block, rfl, rfl⟩ := (parseAppendBlockPayload_ok
      (lt_of_le_of_lt hpayload (by decide))).1 hparse
    subst hframe
    exact ⟨block, hat, hpayload, hcount, hindex, hfirst,
      by rw [← hlen, block.length_frame]; rfl, rfl, rfl⟩
  · intro h
    obtain ⟨block, hat, hmax, hcount, hindex, hfirst, rfl, rfl, rfl⟩ := h
    have hfit' : Fits block.frame := lt_of_le_of_lt (by have := hat.le; omega) hfit
    have hlen := block.length_frame
    obtain ⟨header, hheader, hheaderLen, hmagic, hfield⟩ := Block.frame_header hmax hat
    refine ⟨header, ⟨hheader, hheaderLen⟩, (), hmagic, (), ?_, block.frame.length, ?_, block.frame,
      ⟨hat, rfl⟩, ⟨.columnBlock, block.payload⟩, (Framing.decodeV1_ok hfit').2 rfl, (), rfl,
      block.appendParsed, (parseAppendBlockPayload_ok (lt_of_le_of_lt hmax (by decide))).2
        ⟨block, rfl, rfl⟩, (), ⟨hindex, hfirst⟩, rfl, rfl, rfl⟩
    · rw [hfield]
      exact ⟨hmax, hcount⟩
    · rw [hfield, ← hlen]
      exact ⟨hfit', rfl⟩

theorem RecoverState.push_ok {s s' : RecoverState} {recordLen : ℕ} {payload : List UInt8}
    {parsed : AppendBlockPayload} : s.push recordLen payload parsed = .ok s' ↔
      s'.expectedBlockIndex.toNat = s.expectedBlockIndex.toNat + 1 ∧
        s'.expectedFirstRowIndex.toNat = s.expectedFirstRowIndex.toNat + parsed.rowCount.toNat ∧
        s.cursor + recordLen < wordSize ∧ s'.cursor = s.cursor + recordLen ∧
        s'.blocks = s.blocks ++ [⟨parsed.blockIndex, UInt64.ofNat s.cursor, parsed.rowCount,
          parsed.rawSize, UInt64.ofNat recordLen, checksum payload⟩] ∧
        s'.truncatedOrCorruptTail = s.truncatedOrCorruptTail := by
  simp only [push, bind_ok, okOr_ok, checkedAdd_eq_some, usizeAdd_eq_some, pure_ok]
  constructor
  · intro h
    obtain ⟨index, hindex, row, hrow, cursor, ⟨hlt, rfl⟩, rfl⟩ := h
    exact ⟨hindex, hrow, hlt, rfl, rfl, rfl⟩
  · intro h
    obtain ⟨hindex, hrow, hlt, hcursor, hblocks, htail⟩ := h
    refine ⟨_, hindex, _, hrow, _, ⟨hlt, rfl⟩, ?_⟩
    rw [← hcursor, ← hblocks, ← htail]

/-- A round brings the end of the scan nearer. -/
theorem recoverStep_measure {data : List UInt8} {s s' : RecoverState}
    (h : recoverStep data s = .ok (some s')) : s'.measure data < s.measure data := by
  unfold recoverStep at h
  split at h
  · cases h
  · rename_i hgo
    rw [not_or, not_le] at hgo
    obtain ⟨htail, hlt⟩ := hgo
    split at h
    · cases h
      simp [RecoverState.measure, htail]
    · rename_i recordLen payload parsed hrecord
      rw [map_ok] at h
      obtain ⟨next, hpush, hnext⟩ := h
      cases hnext
      have hpos := recoverRecord_pos hrecord
      obtain ⟨-, -, -, hcursor, -, htail'⟩ := RecoverState.push_ok.1 hpush
      simp only [RecoverState.measure, hcursor, htail', htail]
      omega

def recoverLoop (data : List UInt8) : Loop CompactError RecoverState where
  step := recoverStep data
  measure := RecoverState.measure data
  decreases h := recoverStep_measure h

theorem recoverLoop_step (data : List UInt8) (s : RecoverState) :
    (recoverLoop data).step s = recoverStep data s := rfl

/-- Recover block metadata and valid byte length from an append stream. -/
def recoverAppendStream (data : List UInt8) : Result AppendRecovery :=
  if data = [] then .ok ⟨0, [], 0, 0, 0, false⟩
  else if data.length < streamHeaderLen then .ok emptyCorruptRecovery
  else if data.take 4 ≠ magicV2 ∨ data.getD 4 0 ≠ versionV2 ∨ data.getD 5 0 ≠ streamFlags ∨
      u32OfLe ((data.drop 6).take 4) ≠ 0 then .ok emptyCorruptRecovery
  else do
    let s ← (recoverLoop data).run ⟨streamHeaderLen, [], 0, 0, false⟩
    let totalRows ← checkedBlockTotal s.blocks (·.rowCount) "append row count overflow"
    let totalUncompressedSize ← checkedBlockTotal s.blocks (·.uncompressedSize)
      "append uncompressed size overflow"
    let totalCompressedSize ← checkedBlockTotal s.blocks (·.compressedSize)
      "append compressed size overflow"
    return ⟨UInt64.ofNat s.cursor, s.blocks, totalRows, totalUncompressedSize, totalCompressedSize,
      s.truncatedOrCorruptTail⟩

/-! ### What is recovered -/

/-- The log that recovery reads: it stops behind so many blocks. -/
abbrev appendLog : LogFormat Block := blockLog.capped maxStreamBlocks

/-- The scan stands behind some blocks. -/
structure RecoverState.After (s : RecoverState) (blocks : List Block) : Prop where
  cursor_eq : s.cursor = streamEnd blocks
  blocks_eq : s.blocks = metadataFrom streamHeaderLen blocks
  index_eq : s.expectedBlockIndex.toNat = blocks.length
  firstRow_eq : s.expectedFirstRowIndex.toNat = blockRows blocks
  tail_eq : s.truncatedOrCorruptTail = false

variable {data : List UInt8} {blocks : List Block} {block : Block} {s : RecoverState}

/-- What the scan finds behind some blocks. -/
theorem RecoverState.After.record {payload : List UInt8} {recordLen : ℕ}
    {parsed : AppendBlockPayload} (h : s.After blocks) (hfit : Fits data) :
    recoverRecord data s = some (recordLen, payload, parsed) ↔
      ∃ block : Block, appendLog.Accepts blocks block ∧ At data (streamEnd blocks) block.frame ∧
        recordLen = block.frame.length ∧ payload = block.payload ∧ parsed = block.appendParsed := by
  rw [recoverRecord_eq_some hfit, h.cursor_eq, h.blocks_eq, length_metadataFrom]
  constructor
  · intro hrecord
    obtain ⟨block, hat, hmax, hcount, hindex, hfirst, hrest⟩ := hrecord
    exact ⟨block, ⟨⟨hmax, by rw [hindex, h.index_eq], by rw [hfirst, h.firstRow_eq]⟩, hcount⟩, hat,
      hrest⟩
  · intro hrecord
    obtain ⟨block, ⟨⟨hmax, hindex, hfirst⟩, hcount⟩, hat, hrest⟩ := hrecord
    exact ⟨block, hat, hmax, hcount, UInt64.toNat_inj.1 (hindex.trans h.index_eq.symm),
      UInt64.toNat_inj.1 (hfirst.trans h.firstRow_eq.symm), hrest⟩

/-- The round on a block that is there. -/
theorem RecoverState.After.step_block (h : s.After blocks) (hfit : Fits data)
    (hlog : appendLog.Holds data streamHeaderLen (blocks ++ [block])) :
    recoverStep data s = some <$> s.push block.frame.length block.payload block.appendParsed := by
  obtain ⟨-, hacc, hat⟩ := LogFormat.holds_snoc.1 hlog
  have hrecord := (h.record hfit).2 ⟨block, hacc, hat, rfl, rfl, rfl⟩
  have hlt : s.cursor < data.length := by
    have hle := hat.le
    have hpos := List.length_pos_of_ne_nil block.frame_ne
    rw [h.cursor_eq, streamEnd]
    change streamHeaderLen + _ + block.frame.length ≤ _ at hle
    exact lt_of_lt_of_le (Nat.lt_add_of_pos_right hpos) hle
  rw [recoverStep, if_neg (by simp [h.tail_eq, hlt]), hrecord]

/-- The scan follows the log, as long as the row count fits in a word. -/
theorem recoverLoop_follows (hfit : Fits data) :
    Follows (recoverLoop data) appendLog data streamHeaderLen RecoverState.After
      (fun blocks => blockRows blocks < 2 ^ 64) where
  next := by
    intro s blocks block hs hlog hgood
    have hstep := hs.step_block hfit hlog
    have hend : streamEnd (blocks ++ [block]) ≤ data.length := hlog.le
    have hcount : blocks.length + 1 < 2 ^ 64 := by
      have hle := LogFormat.length_le_flat hlog.1
      have hdata : data.length < 2 ^ 64 := hfit
      rw [LogFormat.capped_flat, List.length_append, List.length_singleton] at hle
      rw [streamEnd] at hend
      omega
    have hend' := streamEnd_snoc blocks block
    rw [blockRows_append, blockRows_singleton] at hgood
    obtain ⟨s', hpush, hs'⟩ : ∃ s', s.push block.frame.length block.payload block.appendParsed =
        .ok s' ∧ s'.After (blocks ++ [block]) := by
      refine ⟨⟨streamEnd (blocks ++ [block]), _, UInt64.ofNat (blocks.length + 1),
        UInt64.ofNat (blockRows blocks + block.rowCount.toNat), false⟩,
        RecoverState.push_ok.2 ⟨?_, ?_, ?_, ?_, rfl, hs.tail_eq.symm⟩, ⟨rfl, ?_, ?_, ?_, rfl⟩⟩
      · rw [toNat_ofNat hcount, hs.index_eq]
      · rw [toNat_ofNat hgood, hs.firstRow_eq]
        rfl
      · rw [hs.cursor_eq, ← hend']
        exact lt_of_le_of_lt hend hfit
      · rw [hs.cursor_eq, ← hend']
      · rw [hs.blocks_eq, hs.cursor_eq, metadataFrom_append]
        rfl
      · rw [toNat_ofNat hcount, List.length_append, List.length_singleton]
      · rw [toNat_ofNat hgood, blockRows_append, blockRows_singleton]
    refine ⟨s', ?_, hs'⟩
    rw [recoverLoop_step, hstep, hpush]
    rfl
  fail := by
    intro s blocks block hs hlog hbad
    have hstep := hs.step_block hfit hlog
    rw [recoverLoop_step, hstep]
    cases hpush : s.push block.frame.length block.payload block.appendParsed with
    | error e => exact ⟨e, rfl⟩
    | ok s' =>
        obtain ⟨-, hrow, -⟩ := RecoverState.push_ok.1 hpush
        rw [hs.firstRow_eq] at hrow
        rw [blockRows_append, blockRows_singleton] at hbad
        exact absurd (hrow ▸ s'.expectedFirstRowIndex.toNat_lt) hbad
  good_of_append := by
    intro blocks blocks' hgood
    rw [blockRows_append] at hgood
    omega

/-- Behind a complete log the scan stops: at the end of the input, or with its flag set. -/
theorem RecoverState.After.stop (h : s.After blocks) (hfit : Fits data)
    (hlog : appendLog.Complete data streamHeaderLen blocks) :
    (recoverLoop data).run s =
      .ok { s with truncatedOrCorruptTail := decide (streamEnd blocks < data.length) } := by
  by_cases hlt : streamEnd blocks < data.length
  · have hnone : recoverRecord data s = none := by
      cases hrecord : recoverRecord data s with
      | none => rfl
      | some record =>
          obtain ⟨recordLen, payload, parsed⟩ := record
          obtain ⟨block, hacc, hat, -⟩ := (h.record hfit).1 hrecord
          exact absurd hat (hlog.2 block hacc)
    have hstep :
        (recoverLoop data).step s = .ok (some { s with truncatedOrCorruptTail := true }) := by
      rw [recoverLoop_step, recoverStep, if_neg (by simp [h.tail_eq, h.cursor_eq, hlt]), hnone]
    have hstop : (recoverLoop data).step { s with truncatedOrCorruptTail := true } = .ok none := by
      rw [recoverLoop_step, recoverStep, if_pos (Or.inl rfl)]
    rw [Loop.run_of_some hstep, Loop.run_of_none hstop, decide_eq_true hlt]
  · have hstop : (recoverLoop data).step s = .ok none := by
      rw [recoverLoop_step, recoverStep, if_pos (Or.inr (by rw [h.cursor_eq]; omega))]
    rw [Loop.run_of_none hstop, decide_eq_false hlt, ← h.tail_eq]

/-- What recovery reports of a log. -/
def appendRecoveryOf (data : List UInt8) (blocks : List Block) : AppendRecovery where
  validLen := UInt64.ofNat (streamEnd blocks)
  blocks := metadataFrom streamHeaderLen blocks
  totalRows := UInt64.ofNat (blockRows blocks)
  totalUncompressedSize := UInt64.ofNat (blockRaw blocks)
  totalCompressedSize := UInt64.ofNat (blockLog.flat blocks).length
  truncatedOrCorruptTail := streamEnd blocks < data.length

omit [Crc32Fast] in
/-- The header check of recovery is that of the readers. -/
theorem appendHeader_iff (hlen : streamHeaderLen ≤ data.length) :
    (data.take 4 ≠ magicV2 ∨ data.getD 4 0 ≠ versionV2 ∨ data.getD 5 0 ≠ streamFlags ∨
      u32OfLe ((data.drop 6).take 4) ≠ 0) ↔ ¬At data 0 writeStreamHeader := by
  have hten : 10 ≤ data.length := hlen
  rw [← not_iff_not]
  simp only [not_or, not_not, ne_eq, writeStreamHeader, at_append, List.length_singleton,
    show magicV2.length = 4 from rfl, Nat.zero_add, Nat.reduceAdd]
  constructor
  · intro h
    obtain ⟨hmagic, hversion, hflags, hext⟩ := h
    refine ⟨at_of_slice (by rw [show magicV2.length = 4 from rfl]; omega) hmagic,
      at_of_getD (by omega) hversion, at_of_getD (by omega) hflags, ?_⟩
    rw [← hext, le32_u32OfLe (by rw [List.length_take, List.length_drop]; omega)]
    exact at_take_drop (by omega)
  · intro h
    obtain ⟨hmagic, hversion, hflags, hext⟩ := h
    refine ⟨hmagic.slice, hversion.getD, hflags.getD, ?_⟩
    have hslice := hext.slice
    rw [length_le32] at hslice
    rw [hslice, u32OfLe_le32]

/-- **Recovery finds the complete log behind the header**, unless its row count or its raw size
overflows. -/
theorem recoverAppendStream_complete (hfit : Fits data) (hheader : At data 0 writeStreamHeader)
    (hlog : appendLog.Complete data streamHeaderLen blocks) :
    (blockRows blocks < 2 ^ 64 ∧ blockRaw blocks < 2 ^ 64 →
        recoverAppendStream data = .ok (appendRecoveryOf data blocks)) ∧
      (¬(blockRows blocks < 2 ^ 64 ∧ blockRaw blocks < 2 ^ 64) →
        ∃ e, recoverAppendStream data = .error e) := by
  have hle := header_le hheader
  have hne : data ≠ [] := by
    intro hnil
    rw [hnil, List.length_nil, streamHeaderLen] at hle
    omega
  have hstart : RecoverState.After ⟨streamHeaderLen, [], 0, 0, false⟩ [] :=
    ⟨rfl, rfl, rfl, rfl, rfl⟩
  have hlog' := hlog.1
  rw [← List.nil_append blocks] at hlog'
  have hheader' := mt (appendHeader_iff hle).1 (not_not.2 hheader)
  rw [recoverAppendStream, if_neg hne, if_neg (Nat.not_lt.2 hle), if_neg hheader']
  by_cases hrows : blockRows blocks < 2 ^ 64
  · obtain ⟨s, hrounds, hs⟩ := (recoverLoop_follows hfit).rounds blocks hstart hlog'
      (by simpa using hrows)
    rw [List.nil_append] at hs
    have hend := hrounds.run_eq.trans (hs.stop hfit hlog)
    rw [exists_error_iff]
    have hflat := lt_of_le_of_lt hlog.1.le hfit
    rw [LogFormat.capped_flat, wordSize] at hflat
    simp only [hend, bind_ok, Except.ok.injEq, exists_eq_left', checkedBlockTotal_ok, hs.blocks_eq,
      blockSum_rowCount, blockSum_uncompressedSize, blockSum_compressedSize hflat, pure_ok]
    constructor
    · intro hgood
      refine ⟨_, toNat_ofNat hgood.1, _, toNat_ofNat hgood.2, _, toNat_ofNat (by omega), ?_⟩
      rw [hs.cursor_eq]
      rfl
    · intro hbad r hr
      simp only [bind_ok, Except.ok.injEq, exists_eq_left', checkedBlockTotal_ok,
        blockSum_uncompressedSize] at hr
      obtain ⟨_, _, raw, hraw, _⟩ := hr
      exact hbad ⟨hrows, hraw ▸ raw.toNat_lt⟩
  · obtain ⟨e, he⟩ := (recoverLoop_follows hfit).run_error blocks hstart (by decide) hlog'
      (by simpa using hrows)
    rw [he]
    exact ⟨fun hgood => absurd hgood.1 hrows, fun _ => ⟨e, rfl⟩⟩

theorem recoverAppendStream_corrupt (hne : data ≠ []) (hheader : ¬At data 0 writeStreamHeader) :
    recoverAppendStream data = .ok emptyCorruptRecovery := by
  rw [recoverAppendStream, if_neg hne]
  by_cases hlen : data.length < streamHeaderLen
  · rw [if_pos hlen]
  · rw [if_neg hlen, if_pos ((appendHeader_iff (Nat.le_of_not_lt hlen)).2 hheader)]

/-- **What is recovered**: nothing of an empty input, nothing behind a damaged header, and else the
complete log. -/
theorem recoverAppendStream_ok {r : AppendRecovery} (hfit : Fits data) :
    recoverAppendStream data = .ok r ↔
      data = [] ∧ r = ⟨0, [], 0, 0, 0, false⟩ ∨
      data ≠ [] ∧ ¬At data 0 writeStreamHeader ∧ r = emptyCorruptRecovery ∨
      At data 0 writeStreamHeader ∧ ∃ blocks, appendLog.Complete data streamHeaderLen blocks ∧
        blockRows blocks < 2 ^ 64 ∧ blockRaw blocks < 2 ^ 64 ∧
          r = appendRecoveryOf data blocks := by
  by_cases hheader : At data 0 writeStreamHeader
  · have hle := header_le hheader
    have hne : data ≠ [] := by
      intro hnil
      rw [hnil, List.length_nil, streamHeaderLen] at hle
      omega
    obtain ⟨blocks, hlog⟩ := LogFormat.exists_complete (F := appendLog) hle
    obtain ⟨hok, herr⟩ := recoverAppendStream_complete hfit hheader hlog
    simp only [hne, false_and, ne_eq, not_true, hheader, false_or, true_and, not_false_eq_true]
    constructor
    · intro h
      by_cases hgood : blockRows blocks < 2 ^ 64 ∧ blockRaw blocks < 2 ^ 64
      · rw [hok hgood, Except.ok.injEq] at h
        exact ⟨blocks, hlog, hgood.1, hgood.2, h.symm⟩
      · exact absurd h ((exists_error_iff.1 (herr hgood)) r)
    · intro h
      obtain ⟨blocks', hlog', hrows, hraw, rfl⟩ := h
      rw [LogFormat.complete_unique hlog hlog'] at hok
      exact hok ⟨hrows, hraw⟩
  · by_cases hne : data = []
    · subst hne
      simp [recoverAppendStream, hheader, eq_comm]
    · rw [recoverAppendStream_corrupt hne hheader]
      simp [hne, hheader, eq_comm]

theorem length_header_append (blocks : List Block) :
    (writeStreamHeader ++ blockLog.flat blocks).length = streamEnd blocks := by
  rw [List.length_append, length_writeStreamHeader]
  rfl

/-- The bytes up to the end of a log. -/
theorem take_streamEnd (hheader : At data 0 writeStreamHeader)
    (hlog : blockLog.Holds data streamHeaderLen blocks) :
    data.take (streamEnd blocks) = writeStreamHeader ++ blockLog.flat blocks := by
  have hbody : At data 0 (writeStreamHeader ++ blockLog.flat blocks) := by
    rw [at_append, length_writeStreamHeader]
    exact ⟨hheader, by rw [Nat.zero_add]; exact hlog.2⟩
  have htake := hbody.slice
  rwa [length_header_append, List.drop_zero] at htake

/-! ### Appending -/

variable [SerdeJson]

/-- The writer that an append starts with, behind the valid prefix. -/
def resumeWriter (existing : List UInt8) (recovery : AppendRecovery) (options : BlockOptions) :
    Result JsonlBlockWriter :=
  let output := if existing = [] then [] else existing.take recovery.validLen.toNat
  if output = [] then JsonlBlockWriter.new output options
  else
    JsonlBlockWriter.resumeWithoutHeader output options (UInt64.ofNat recovery.blocks.length)
      recovery.totalRows recovery.validLen

/-- The writer of an append, behind the lines of the input. -/
def appendWriter (existing : List UInt8) (input : BufRead) (schema : Schema)
    (options : BlockOptions) : Result JsonlBlockWriter := do
  let recovery ← recoverAppendStream existing
  let writer ← resumeWriter existing recovery options
  Method.exec (forLines options.maxUncompressedBytesPerBlock
    (JsonlBlockWriter.writeJsonlLine schema options) input) writer

/-- Append JSONL lines to an existing append stream byte buffer. -/
def appendJsonlStream (existing : List UInt8) (input : BufRead) (schema : Schema)
    (options : BlockOptions) : Result (List UInt8) := do
  let writer ← appendWriter existing input schema options
  writer.finishWithoutFooter schema

/-- The blocks that an append writes. -/
def appendedBlocks (existing : List UInt8) (input : BufRead) (schema : Schema)
    (options : BlockOptions) : Result (List BlockMetadata) := do
  let writer ← appendWriter existing input schema options
  let writer ← Method.exec (JsonlBlockWriter.flushBlock schema) writer
  return writer.metadata

/-- Replay a recovered append stream sequentially into JSONL bytes. -/
def replayJsonlAppendStream (data : List UInt8) (schema : Schema) : Result (List UInt8) := do
  let recovery ← recoverAppendStream data
  let valid := data.take recovery.validLen.toNat
  let reader ← JsonlBlockReader.newWithMode valid false
  let s ← (decodeLoop valid schema).run ⟨reader, []⟩
  return s.output

/-- The blocks that an append keeps. -/
def Recovered (existing : List UInt8) (old : List Block) : Prop :=
  ¬At existing 0 writeStreamHeader ∧ old = [] ∨
    At existing 0 writeStreamHeader ∧ appendLog.Complete existing streamHeaderLen old

/-- The writer of an append goes on behind the blocks that the append keeps. -/
theorem resumeWriter_ok {existing : List UInt8} {schema : Schema} {options : BlockOptions}
    {recovery : AppendRecovery} {w : JsonlBlockWriter} (hfit : Fits existing)
    (hrec : recoverAppendStream existing = .ok recovery)
    (hnew : resumeWriter existing recovery options = .ok w) :
    ∃ old, Recovered existing old ∧ old.length ≤ maxStreamBlocks ∧
      w.Wrote schema (writeStreamHeader ++ blockLog.flat old) old .empty [] := by
  by_cases hheader : At existing 0 writeStreamHeader
  · have hle := header_le hheader
    have hne : existing ≠ [] := by
      intro hnil
      rw [hnil, List.length_nil, streamHeaderLen] at hle
      omega
    rcases (recoverAppendStream_ok hfit).1 hrec with ⟨hnil, -⟩ | ⟨-, hbad, -⟩ |
      ⟨-, old, hlog, hrows, -, rfl⟩
    · exact absurd hnil hne
    · exact absurd hheader hbad
    · obtain ⟨hholds, hcount⟩ := LogFormat.capped_holds.1 hlog.1
      have hend : streamEnd old < 2 ^ 64 := lt_of_le_of_lt hholds.le hfit
      have hoffset := toNat_ofNat hend
      have hindex : (UInt64.ofNat old.length).toNat = old.length := toNat_ofNat (by
        have hmax : maxStreamBlocks < 2 ^ 64 := by decide
        omega)
      have htake := take_streamEnd hheader hholds
      have hout : writeStreamHeader ++ blockLog.flat old ≠ [] := by
        simp [writeStreamHeader, magicV2]
      simp only [resumeWriter, if_neg hne, appendRecoveryOf, hoffset, htake, if_neg hout,
        JsonlBlockWriter.resumeWithoutHeader, bind_ok, pure_ok, length_metadataFrom] at hnew
      obtain ⟨_, _, rfl⟩ := hnew
      exact ⟨old, Or.inr ⟨hheader, hlog⟩, hcount,
        JsonlBlockWriter.wrote_start _ hindex (toNat_ofNat hrows) hoffset⟩
  · have hvalid : (if existing = [] then [] else existing.take recovery.validLen.toNat) = [] := by
      rcases (recoverAppendStream_ok hfit).1 hrec with ⟨hnil, -⟩ | ⟨hne, -, rfl⟩ | ⟨hyes, -⟩
      · rw [if_pos hnil]
      · rw [if_neg hne]
        rfl
      · exact absurd hyes hheader
    simp only [resumeWriter, hvalid, if_true, JsonlBlockWriter.new, bind_ok, pure_ok] at hnew
    obtain ⟨_, _, rfl⟩ := hnew
    exact ⟨[], Or.inl ⟨hheader, rfl⟩, Nat.zero_le _, JsonlBlockWriter.wrote_start _ rfl rfl rfl⟩

/-- **What an append writes**: the blocks of the new row groups, behind the blocks that it keeps. -/
theorem appendJsonlStream_ok {existing log : List UInt8} {input : BufRead} {schema : Schema}
    {options : BlockOptions} {metadata : List BlockMetadata} (hfit : Fits existing)
    (hlog : appendJsonlStream existing input schema options = .ok log)
    (hblocks : appendedBlocks existing input schema options = .ok metadata) :
    ∃ lines rows old blocks, InputLines options.maxUncompressedBytesPerBlock input.bytes lines ∧
      acceptLines options.maxUncompressedBytesPerBlock lines = .ok rows ∧
      Recovered existing old ∧ Encoded schema old (cutRows options rows) blocks ∧
      log = writeStreamHeader ++ blockLog.flat (old ++ blocks) ∧ Fits log ∧
      metadata = metadataFrom (streamEnd old) blocks ∧ blockRows (old ++ blocks) < 2 ^ 64 ∧
      (old ++ blocks).length ≤ maxStreamBlocks := by
  simp only [appendJsonlStream, JsonlBlockWriter.finishWithoutFooter, bind_ok, Method.exec_ok,
    pure_ok] at hlog
  obtain ⟨writer, hwriter, w, ⟨_, hflush⟩, rfl⟩ := hlog
  simp only [appendedBlocks, hwriter, bind_ok, Except.ok.injEq, exists_eq_left', Method.exec_ok,
    pure_ok] at hblocks
  obtain ⟨w', ⟨_, hflush'⟩, rfl⟩ := hblocks
  rw [hflush] at hflush'
  cases hflush'
  simp only [appendWriter, bind_ok, Method.exec_ok] at hwriter
  obtain ⟨recovery, hrec, start, hstart, _, hlines⟩ := hwriter
  obtain ⟨old, hold, hcount, hwrote⟩ := resumeWriter_ok hfit hrec hstart
  obtain ⟨lines, rows, blocks, hinput, hrows, hwrote⟩ := hwrote.writeLines hlines hflush
  refine ⟨lines, rows, old, blocks, hinput, hrows, hold, hwrote.encoded, ?_, ?_,
    hwrote.metadata_eq, ?_, ?_⟩
  · rw [hwrote.writer_eq, LogFormat.flat_append, List.append_assoc]
  · rw [hwrote.writer_eq, List.append_assoc, ← LogFormat.flat_append, Fits, length_header_append,
      ← hwrote.offset_eq]
    exact w.bytesWritten.toNat_lt
  · rw [← hwrote.row_eq]
    exact w.rowsWritten.toNat_lt
  · rcases hwrote.bounded with rfl | hle
    · rwa [List.append_nil]
    · exact hle

end

end CompactCore.Streaming
