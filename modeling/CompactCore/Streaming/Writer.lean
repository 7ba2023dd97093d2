/-
**Writing `CMP2` streams.**

The block writer collects rows and writes each row group as the frame of a block.  It keeps the
counters that the next block needs, and the metadata of the blocks it has written for the footer.

Main definitions:

* `CompactCore.Streaming.JsonlBlockWriter`, `CompactCore.Streaming.encodeJsonlStream` — the writer;
* `CompactCore.Streaming.Block.IsNext`, `CompactCore.Streaming.Encoded` — the blocks of row groups;
* `CompactCore.Streaming.JsonlBlockWriter.Wrote` — what a writer has written.

Main results:

* `CompactCore.Streaming.JsonlBlockWriter.Wrote.writeLines` — **a writer writes the blocks of the
  row groups that the options cut**;
* `CompactCore.Streaming.JsonlBlockWriter.flushBlock_error` — a flush that fails leaves the writer
  as it was;
* `CompactCore.Streaming.encodeJsonlStream_ok` — what an encoded stream is.
-/

import CompactCore.Io.ColumnBlock
import CompactCore.Streaming.Lines
import CompactCore.Streaming.RowGroup
import CompactCore.Streaming.Scan

set_option relaxedAutoImplicit false
set_option autoImplicit false

namespace CompactCore.Streaming

open Wire CompactError Io

/-! ### The block writer -/

/-- A writer.  Its schema and its options do not change, and stand apart. -/
structure JsonlBlockWriter where
  writer : List UInt8
  current : RowGroupBuffer
  blocksWritten : UInt64
  rowsWritten : UInt64
  bytesWritten : UInt64
  metadata : List BlockMetadata
  deriving DecidableEq, Repr

namespace JsonlBlockWriter

def newWithState (writer : List UInt8) (blocksWritten rowsWritten bytesWritten : UInt64) :
    JsonlBlockWriter :=
  ⟨writer, .empty, blocksWritten, rowsWritten, bytesWritten, []⟩

def new (writer : List UInt8) (options : BlockOptions) : Result JsonlBlockWriter := do
  let _ ← options.validate
  return newWithState (writer ++ writeStreamHeader) 0 0 (UInt64.ofNat streamHeaderLen)

def resumeWithoutHeader (writer : List UInt8) (options : BlockOptions)
    (blocksWritten rowsWritten bytesWritten : UInt64) : Result JsonlBlockWriter := do
  let _ ← options.validate
  return newWithState writer blocksWritten rowsWritten bytesWritten

def pushLine (line : String) (w : JsonlBlockWriter) : JsonlBlockWriter :=
  { w with current := w.current.pushLine line }

/-- `write_all`. -/
def writeAll (bytes : List UInt8) (w : JsonlBlockWriter) : JsonlBlockWriter :=
  { w with writer := w.writer ++ bytes }

variable [Crc32Fast] [SerdeJson] (schema : Schema) (options : BlockOptions)

/-- Encode and write the current row group as one framed block. -/
def flushBlock : EStateM CompactError JsonlBlockWriter Unit := do
  let w ← get
  if w.current.isEmpty then pure ()
  else do
    failIf (maxStreamBlocks ≤ w.blocksWritten.toNat)
      (invalidInput "stream block count exceeds configured limit")
    let rowGroup ← encodeJsonlRowGroup w.current.data schema
    let blockPayload ← encodeBlockPayload w.blocksWritten w.rowsWritten rowGroup.rowCount
      rowGroup.rawBytes rowGroup.payload
    let encodedFrame := Framing.encodeV1 .columnBlock blockPayload
    let compressedSize ← tryU64 encodedFrame.length "block frame is too large"
    let rowCount ← tryU64 rowGroup.rowCount "row count is too large"
    let uncompressedSize ← tryU64 rowGroup.rawBytes "row group is too large"
    modify (writeAll encodedFrame)
    let blocksWritten ← okOr (invalidInput "stream block count overflow")
      (checkedAdd w.blocksWritten 1)
    modify fun w => { w with blocksWritten := blocksWritten }
    let rowsWritten ← okOr (invalidInput "stream row count overflow")
      (checkedAdd w.rowsWritten rowCount)
    modify fun w => { w with rowsWritten := rowsWritten }
    let bytesWritten ← okOr (invalidInput "stream byte count overflow")
      (checkedAdd w.bytesWritten compressedSize)
    modify fun w' => { w' with
      bytesWritten := bytesWritten
      metadata := w'.metadata ++ [⟨w.blocksWritten, w.bytesWritten, rowCount, uncompressedSize,
        compressedSize, checksum blockPayload⟩]
      current := .empty }

/-- Buffer one JSONL row and flush automatically if block limits are reached. -/
def writeJsonlLine (line : String) : EStateM CompactError JsonlBlockWriter Unit :=
  addLine options current pushLine (flushBlock schema) line

/-- Flush remaining rows without writing an `IDX1` footer. -/
def finishWithoutFooter (w : JsonlBlockWriter) : Result (List UInt8) := do
  let w ← Method.exec (flushBlock schema) w
  return w.writer

def finish (w : JsonlBlockWriter) : Result (List UInt8) := do
  let w ← Method.exec (flushBlock schema) w
  let footer ← writeIndexFooter w.metadata
  return w.writer ++ footer

end JsonlBlockWriter

/-- Encode JSONL from a buffered reader into a v0.2 block stream. -/
def encodeJsonlStream [Crc32Fast] [SerdeJson] (input : BufRead) (output : List UInt8)
    (schema : Schema) (options : BlockOptions) : Result (List UInt8) := do
  let options ← options.validate
  let writer ← JsonlBlockWriter.new output options
  let writer ← Method.exec (forLines options.maxUncompressedBytesPerBlock
    (JsonlBlockWriter.writeJsonlLine schema options) input) writer
  writer.finish schema

/-- What a block payload holds in front of the columns: the magic, four counters and a length. -/
def blockHeaderLen : ℕ := 4 + 5 * 8

/-! ### The blocks of row groups -/

/-- A block holds a row group, as the one behind some blocks. -/
structure Block.IsNext (blocks : List Block) (group : JsonlRowGroup) (block : Block) : Prop where
  index_eq : block.blockIndex.toNat = blocks.length
  firstRow_eq : block.firstRowIndex.toNat = blockRows blocks
  rowCount_eq : block.rowCount.toNat = group.rowCount
  rawSize_eq : block.rawSize.toNat = group.rawBytes
  columnBlock_eq : block.columnBlock = group.payload

/-- The blocks that row groups are encoded to, behind the blocks `old`. -/
inductive Encoded [SerdeJson] (schema : Schema) (old : List Block) :
    List (List String) → List Block → Prop
  | nil : Encoded schema old [] []
  | snoc {groups : List (List String)} {blocks : List Block} {rows : List String}
      {group : JsonlRowGroup} {block : Block} (init : Encoded schema old groups blocks)
      (encode : encodeJsonlRowGroup (String.join rows) schema = .ok group)
      (next : block.IsNext (old ++ blocks) group) :
      Encoded schema old (groups ++ [rows]) (blocks ++ [block])

section

variable [Crc32Fast] [SerdeJson] {schema : Schema} {old blocks : List Block}

/-- A writer that has gone on behind the blocks `old`, on top of the bytes `base`, has taken in the
rows of a cut and written these blocks. -/
structure JsonlBlockWriter.Wrote (schema : Schema) (base : List UInt8) (old : List Block)
    (cut : Cut)
    (blocks : List Block) (w : JsonlBlockWriter) : Prop where
  encoded : Encoded schema old cut.groups blocks
  writer_eq : w.writer = base ++ blockLog.flat blocks
  current_eq : w.current = RowGroupBuffer.ofRows cut.current
  index_eq : w.blocksWritten.toNat = (old ++ blocks).length
  row_eq : w.rowsWritten.toNat = blockRows (old ++ blocks)
  offset_eq : w.bytesWritten.toNat = streamEnd (old ++ blocks)
  metadata_eq : w.metadata = metadataFrom (streamEnd old) blocks
  bounded : blocks = [] ∨ (old ++ blocks).length ≤ maxStreamBlocks

namespace JsonlBlockWriter

variable {w w' : JsonlBlockWriter} {u : Unit} {e : CompactError}

theorem flushBlock_empty (h : w.current.isEmpty) :
    flushBlock schema w = .ok u w' ↔ w' = w := by
  simp only [flushBlock, Method.bind_ok, Method.get_ok]
  constructor
  · intro hrun
    obtain ⟨_, _, ⟨rfl, rfl⟩, hrun⟩ := hrun
    rw [if_pos h] at hrun
    exact (Method.pure_ok.1 hrun).2.symm
  · intro heq
    refine ⟨w, w, ⟨rfl, rfl⟩, ?_⟩
    rw [if_pos h, heq]
    rfl

/-- What it takes to write a block, and what it does. -/
theorem flushBlock_ok (h : ¬w.current.isEmpty) (hrun : flushBlock schema w = .ok u w') :
    ∃ group, ∃ block : Block, encodeJsonlRowGroup w.current.data schema = .ok group ∧
      w.blocksWritten.toNat < maxStreamBlocks ∧ block.blockIndex = w.blocksWritten ∧
      block.firstRowIndex = w.rowsWritten ∧ block.rowCount.toNat = group.rowCount ∧
      block.rawSize.toNat = group.rawBytes ∧ block.columnBlock = group.payload ∧
      w'.writer = w.writer ++ block.frame ∧ w'.current = .empty ∧
      w'.blocksWritten.toNat = w.blocksWritten.toNat + 1 ∧
      w'.rowsWritten.toNat = w.rowsWritten.toNat + block.rowCount.toNat ∧
      w'.bytesWritten.toNat = w.bytesWritten.toNat + block.frame.length ∧
      w'.metadata = w.metadata ++ [block.metadata w.bytesWritten.toNat] := by
  simp only [flushBlock, Method.bind_ok, Method.get_ok] at hrun
  obtain ⟨_, _, ⟨rfl, rfl⟩, hrun⟩ := hrun
  rw [if_neg h] at hrun
  simp only [Method.bind_ok, Method.lift_ok, Method.modify_ok, failIf_ok, okOr_ok,
    checkedAdd_eq_some, tryU64_ok, encodeBlockPayload_ok] at hrun
  obtain ⟨_, _, ⟨hmax, rfl⟩, group, _, ⟨hgroup, rfl⟩, payload, _, ⟨⟨hrows, hraw, hlen, rfl⟩, rfl⟩,
    size, _, ⟨hsize, rfl⟩, rowCount, _, ⟨hrowCount, rfl⟩, rawSize, _, ⟨hrawSize, rfl⟩, _, _, rfl,
    blocksWritten, _, ⟨hblocks, rfl⟩, _, _, rfl, rowsWritten, _, ⟨hrowsWritten, rfl⟩, _, _, rfl,
    bytesWritten, _, ⟨hbytes, rfl⟩, rfl⟩ := hrun
  refine ⟨group, ⟨w.blocksWritten, w.rowsWritten, UInt64.ofNat group.rowCount,
    UInt64.ofNat group.rawBytes, group.payload⟩, hgroup, Nat.lt_of_not_le hmax, rfl, rfl,
    toNat_ofNat hrows, toNat_ofNat hraw, rfl, rfl, rfl, hblocks, ?_, ?_, ?_⟩
  · rw [hrowsWritten, hrowCount]
    exact congrArg _ (toNat_ofNat hrows).symm
  · rw [hbytes, hsize]
    rfl
  · simp only [writeAll, Block.metadata, UInt64.ofNat_toNat, eq_ofNat hsize, eq_ofNat hrowCount,
      eq_ofNat hrawSize]
    rfl

/-- The counters of a writer have room for a row group. -/
structure Room (w : JsonlBlockWriter) (group : JsonlRowGroup) : Prop where
  blocks_lt : w.blocksWritten.toNat < maxStreamBlocks
  rows_lt : w.rowsWritten.toNat + group.rowCount < 2 ^ 64
  raw_lt : group.rawBytes < 2 ^ 64
  bytes_lt : w.bytesWritten.toNat + (frameHeaderLen + (blockHeaderLen + group.payload.length)) <
    2 ^ 64

/-- A row group that is encoded, and for which there is room, is written. -/
theorem exists_flushBlock {group : JsonlRowGroup}
    (hgroup : encodeJsonlRowGroup w.current.data schema = .ok group) (hroom : w.Room group) :
    ∃ w', flushBlock schema w = .ok () w' := by
  obtain ⟨hblocks, hrows, hraw, hbytes⟩ := hroom
  by_cases hempty : w.current.isEmpty = true
  · exact ⟨w, (flushBlock_empty hempty).2 rfl⟩
  have hmax : maxStreamBlocks < 2 ^ 64 := by decide
  have hpayload : encodeBlockPayload w.blocksWritten w.rowsWritten group.rowCount group.rawBytes
      group.payload = .ok (Block.payload ⟨w.blocksWritten, w.rowsWritten,
        UInt64.ofNat group.rowCount, UInt64.ofNat group.rawBytes, group.payload⟩) :=
    encodeBlockPayload_ok.2 ⟨by omega, hraw, by omega, rfl⟩
  have hlen : (Framing.encodeV1 .columnBlock (Block.payload ⟨w.blocksWritten, w.rowsWritten,
      UInt64.ofNat group.rowCount, UInt64.ofNat group.rawBytes, group.payload⟩)).length =
        frameHeaderLen + (blockHeaderLen + group.payload.length) := by
    rw [Framing.length_encodeV1, Block.length_payload]
    rfl
  have hrowCount : (UInt64.ofNat group.rowCount).toNat = group.rowCount := toNat_ofNat (by omega)
  have hrawBytes : (UInt64.ofNat group.rawBytes).toNat = group.rawBytes := toNat_ofNat hraw
  have hsize : (UInt64.ofNat (frameHeaderLen + (blockHeaderLen + group.payload.length))).toNat =
      frameHeaderLen + (blockHeaderLen + group.payload.length) := toNat_ofNat (by omega)
  simp only [flushBlock, Method.bind_ok, Method.get_ok, and_assoc, exists_and_left, exists_eq_left',
    if_neg hempty, Method.lift_ok, Method.modify_ok, failIf_ok, okOr_ok, checkedAdd_eq_some,
    tryU64_ok, hgroup, hpayload, hlen, Except.ok.injEq, exists_eq_left]
  refine ⟨Nat.not_le.2 hblocks, _, (), _, hsize, _, hrowCount, _, hrawBytes, (), _,
    toNat_ofNat ?_, (), _, toNat_ofNat ?_, (), _, toNat_ofNat ?_, rfl⟩
  · exact lt_of_le_of_lt hblocks hmax
  · rwa [hrowCount]
  · rwa [hsize]

/-- **A flush that fails** leaves the writer as it was, as long as there is room for the row
group. -/
theorem flushBlock_error (hroom : w.blocksWritten.toNat < maxStreamBlocks → ∀ group,
      encodeJsonlRowGroup w.current.data schema = .ok group → w.Room group)
    (hrun : flushBlock schema w = .error e w') : w' = w := by
  by_cases hempty : w.current.isEmpty = true
  · rw [(flushBlock_empty (u := ()) hempty).2 rfl] at hrun
    cases hrun
  have hstart := hrun
  simp only [flushBlock, Method.bind_error, Method.get_ok, Method.get_error, false_or] at hstart
  obtain ⟨_, _, ⟨rfl, rfl⟩, hstart⟩ := hstart
  rw [if_neg hempty] at hstart
  simp only [Method.bind_error, Method.lift_error, Method.lift_ok, failIf_ok] at hstart
  rcases hstart with ⟨-, rfl⟩ | ⟨_, _, ⟨hmax, rfl⟩, hstart⟩
  · rfl
  rcases hstart with ⟨-, rfl⟩ | ⟨group, _, ⟨hgroup, rfl⟩, -⟩
  · rfl
  -- with room for the row group, nothing fails from here on
  obtain ⟨w'', hok⟩ := exists_flushBlock hgroup (hroom (Nat.lt_of_not_le hmax) group hgroup)
  rw [hok] at hrun
  cases hrun

/-- **Flushing writes the block of the open row group.** -/
theorem Wrote.flushBlock {base : List UInt8} {cut : Cut}
    (h : Wrote schema base old cut blocks w) (hne : cut.current ≠ [])
    (hrun : flushBlock schema w = .ok u w') :
    ∃ block, Wrote schema base old cut.flush (blocks ++ [block]) w' := by
  have hfull : ¬w.current.isEmpty := by
    rw [h.current_eq]
    exact fun hempty => hne (RowGroupBuffer.isEmpty_ofRows.1 hempty)
  obtain ⟨group, block, hgroup, hmax, hindex, hfirst, hrows, hraw, hpayload, hwriter, hcurrent,
    hblocks, hrowsWritten, hbytes, hmetadata⟩ := flushBlock_ok hfull hrun
  rw [h.current_eq] at hgroup
  refine ⟨block, ?_, ?_, hcurrent, ?_, ?_, ?_, ?_, ?_⟩
  · exact h.encoded.snoc hgroup
      ⟨by rw [hindex, h.index_eq], by rw [hfirst, h.row_eq], hrows, hraw, hpayload⟩
  · rw [hwriter, h.writer_eq, LogFormat.flat_append, LogFormat.flat_singleton, List.append_assoc]
    rfl
  · rw [hblocks, h.index_eq, ← List.append_assoc, @List.length_append _ (old ++ blocks)]
    rfl
  · rw [hrowsWritten, h.row_eq, ← List.append_assoc, blockRows_append (old ++ blocks),
      blockRows_singleton]
  · rw [hbytes, h.offset_eq, ← List.append_assoc, streamEnd_snoc]
  · rw [hmetadata, h.metadata_eq, h.offset_eq, metadataFrom_append, streamEnd, streamEnd,
      LogFormat.flat_append, List.length_append, Nat.add_assoc]
    rfl
  · right
    rw [h.index_eq] at hmax
    rw [← List.append_assoc, List.length_append, List.length_singleton]
    exact hmax

/-- A writer represents the cut of the rows that it has taken in. -/
theorem represents (schema : Schema) (base : List UInt8) (old : List Block) :
    Represents current pushLine (JsonlBlockWriter.flushBlock schema)
      (fun cut w => ∃ blocks, Wrote schema base old cut blocks w) where
  current_eq _ _ h := h.choose_spec.current_eq
  push cut w row h := by
    obtain ⟨blocks, h⟩ := h
    refine ⟨blocks, h.encoded, h.writer_eq, ?_, h.index_eq, h.row_eq, h.offset_eq, h.metadata_eq,
      h.bounded⟩
    rw [pushLine, h.current_eq, RowGroupBuffer.pushLine_ofRows]
    rfl
  flush cut w w' h hne hrun := by
    obtain ⟨blocks, h⟩ := h
    obtain ⟨block, h'⟩ := h.flushBlock hne hrun
    exact ⟨_, h'⟩

theorem wrote_start {blocksWritten rowsWritten bytesWritten : UInt64} (base : List UInt8)
    (hindex : blocksWritten.toNat = old.length) (hrow : rowsWritten.toNat = blockRows old)
    (hoffset : bytesWritten.toNat = streamEnd old) :
    Wrote schema base old .empty []
      (newWithState base blocksWritten rowsWritten bytesWritten) where
  encoded := .nil
  writer_eq := (List.append_nil _).symm
  current_eq := rfl
  index_eq := by rwa [List.append_nil]
  row_eq := by rwa [List.append_nil]
  offset_eq := by rwa [List.append_nil]
  metadata_eq := rfl
  bounded := Or.inl rfl

/-- The last flush closes the open row group, if it holds rows. -/
theorem Wrote.finish {base : List UInt8} {cut : Cut} (h : Wrote schema base old cut blocks w)
    (hrun : JsonlBlockWriter.flushBlock schema w = .ok u w') :
    ∃ blocks', Wrote schema base old ⟨cut.finish, []⟩ blocks' w' := by
  by_cases hnil : cut.current = []
  · have hempty : w.current.isEmpty := by
      rw [h.current_eq]
      exact RowGroupBuffer.isEmpty_ofRows.2 hnil
    rw [(flushBlock_empty hempty).1 hrun, Cut.finish, if_pos hnil]
    refine ⟨blocks, ?_⟩
    rwa [← hnil]
  · obtain ⟨block, h'⟩ := h.flushBlock hnil hrun
    rw [Cut.finish, if_neg hnil]
    exact ⟨_, h'⟩

/-- **A writer writes the blocks of the row groups that the options cut.** -/
theorem Wrote.writeLines {options : BlockOptions} {base : List UInt8} {input : BufRead}
    {w'' : JsonlBlockWriter} {u' : Unit} (h : Wrote schema base old .empty [] w)
    (hlines : forLines options.maxUncompressedBytesPerBlock (writeJsonlLine schema options)
      input w =
      .ok u w')
    (hflush : JsonlBlockWriter.flushBlock schema w' = .ok u' w'') :
    ∃ lines rows blocks,
      InputLines options.maxUncompressedBytesPerBlock input.bytes lines ∧
      acceptLines options.maxUncompressedBytesPerBlock lines = .ok rows ∧
      Wrote schema base old ⟨cutRows options rows, []⟩ blocks w'' := by
  obtain ⟨lines, hinput, hloop⟩ := forLines_ok.1 hlines
  obtain ⟨rows, hrows, hloop⟩ := forM_addLine.1 hloop
  obtain ⟨blocks, h'⟩ := (represents schema base old).forM_addRow ⟨[], h⟩ hloop
  obtain ⟨blocks', h''⟩ := h'.finish hflush
  exact ⟨lines, rows, blocks', hinput, hrows, h''⟩

end JsonlBlockWriter

omit [Crc32Fast] in
/-- A row group has as many raw bytes as its rows, and no fewer than it has rows. -/
theorem encodeJsonlRowGroup_counts {maxRowLen : ℕ} {rows : List String} {group : JsonlRowGroup}
    (hgroup : encodeJsonlRowGroup (String.join rows) schema = .ok group)
    (hrows : ∀ row ∈ rows, IsRow maxRowLen row) :
    group.rowCount = rows.length ∧ group.rawBytes = (rows.map String.utf8ByteSize).sum := by
  obtain ⟨parsed, _, _, _, hparsed, -, -, -, -, rfl⟩ := encodeJsonlRowGroup_ok hgroup
  refine ⟨length_of_parseRows_join hrows hparsed, ?_⟩
  rw [← utf8ByteSize_join]
  rfl

omit [Crc32Fast] in
theorem Encoded.length_eq {groups : List (List String)} (h : Encoded schema old groups blocks) :
    blocks.length = groups.length := by
  induction h with
  | nil => rfl
  | snoc _ _ _ ih =>
      rw [List.length_append, List.length_append, ih]
      rfl

omit [Crc32Fast] in
/-- A block that was written holds a row group. -/
theorem Encoded.mem {groups : List (List String)} {block : Block}
    (h : Encoded schema old groups blocks) (hblock : block ∈ blocks) :
    ∃ rows ∈ groups, ∃ group done, encodeJsonlRowGroup (String.join rows) schema = .ok group ∧
      block.IsNext done group := by
  induction h with
  | nil => cases hblock
  | @snoc groups blocks rows group last _ hencode hnext ih =>
      rcases List.mem_append.1 hblock with hblock | hblock
      · obtain ⟨rows', hmem, hrest⟩ := ih hblock
        exact ⟨rows', List.mem_append_left _ hmem, hrest⟩
      · rw [List.mem_singleton.1 hblock]
        exact ⟨rows, by simp, group, _, hencode, hnext⟩

/-- Blocks whose frames the readers accept make a log. -/
theorem Encoded.chain {groups : List (List String)} (h : Encoded schema old groups blocks)
    (hmax : ∀ block ∈ blocks, block.payload.length ≤ maxEncodedBlockBytes) :
    blockLog.Chain old blocks := by
  induction h with
  | nil => trivial
  | @snoc groups blocks rows group block _ _ hnext ih =>
      refine LogFormat.chain_append.2 ⟨ih fun b hb => hmax b (List.mem_append_left _ hb),
        ?_, trivial⟩
      exact ⟨hmax block (by simp), hnext.index_eq, hnext.firstRow_eq⟩

/-- What the writer of an encoded stream has written in the end. -/
theorem encodeJsonlStream_wrote {input : BufRead} {output stream : List UInt8}
    {options : BlockOptions} (h : encodeJsonlStream input output schema options = .ok stream) :
    ∃ lines rows blocks w, InputLines options.maxUncompressedBytesPerBlock input.bytes lines ∧
      acceptLines options.maxUncompressedBytesPerBlock lines = .ok rows ∧
      JsonlBlockWriter.Wrote schema (output ++ writeStreamHeader) [] ⟨cutRows options rows, []⟩
        blocks w ∧
      options.validate = .ok options ∧ stream = w.writer ++ indexFooter w.metadata := by
  simp only [encodeJsonlStream, JsonlBlockWriter.new, JsonlBlockWriter.finish, bind_ok,
    Method.exec_ok, pure_ok, writeIndexFooter_ok] at h
  obtain ⟨_, hoptions, _, ⟨_, _, rfl⟩, w, ⟨_, hlines⟩, w', ⟨_, hflush⟩, footer, ⟨_, rfl⟩, rfl⟩ := h
  obtain ⟨-, -, rfl⟩ := BlockOptions.validate_ok.1 hoptions
  have hstart : JsonlBlockWriter.Wrote schema (output ++ writeStreamHeader) [] .empty []
      (JsonlBlockWriter.newWithState (output ++ writeStreamHeader) 0 0
        (UInt64.ofNat streamHeaderLen)) := JsonlBlockWriter.wrote_start _ rfl rfl rfl
  obtain ⟨lines, rows, blocks, hinput, hrows, hwrote⟩ := hstart.writeLines hlines hflush
  exact ⟨lines, rows, blocks, w', hinput, hrows, hwrote, hoptions, rfl⟩

/-- **What an encoded stream is**: the header, the blocks of the row groups, and their footer. -/
theorem encodeJsonlStream_ok {input : BufRead} {output stream : List UInt8} {options : BlockOptions}
    (h : encodeJsonlStream input output schema options = .ok stream) :
    ∃ lines rows blocks, InputLines options.maxUncompressedBytesPerBlock input.bytes lines ∧
      acceptLines options.maxUncompressedBytesPerBlock lines = .ok rows ∧
      Encoded schema [] (cutRows options rows) blocks ∧ blocks.length ≤ maxStreamBlocks ∧
      blockRows blocks < 2 ^ 64 ∧ options.validate = .ok options ∧
      stream = output ++ (writeStreamHeader ++ (blockLog.flat blocks ++ footerOf blocks true)) := by
  obtain ⟨lines, rows, blocks, w, hinput, hrows, hwrote, hoptions, rfl⟩ := encodeJsonlStream_wrote h
  refine ⟨lines, rows, blocks, hinput, hrows, hwrote.encoded, ?_, ?_, hoptions, ?_⟩
  · rcases hwrote.bounded with rfl | hle
    · exact Nat.zero_le _
    · exact hle
  · have hrow := hwrote.row_eq
    rw [List.nil_append] at hrow
    exact hrow ▸ w.rowsWritten.toNat_lt
  · rw [hwrote.writer_eq, hwrote.metadata_eq, footerOf, if_pos rfl]
    simp only [List.append_assoc]
    rfl

end

end CompactCore.Streaming
