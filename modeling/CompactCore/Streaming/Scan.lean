/-
**Scanning `CMP2` streams.**

Every reader of a stream walks over its records with the same counters: the index and the first row
that the next block must have, the offset of the next frame, and the metadata of the blocks so far.
A scan that has counted the blocks of a log is at the next block of the log, or at its end; and a
log that is followed by the end of the input, or by a footer, is a stream.

Main definitions:

* `CompactCore.Streaming.ScanState` — the counters of a scan;
* `CompactCore.Streaming.ScanState.Counts` — a scan has counted some blocks;
* `CompactCore.Streaming.Stream` — a byte string is a sealed or an unsealed stream of blocks.

Main results:

* `CompactCore.Streaming.record_block`, `CompactCore.Streaming.record_complete`,
  `CompactCore.Streaming.Stream.record_end` — **what stands at the next record** of a log;
* `CompactCore.Streaming.ScanState.Counts.count_ok` — counting the next block.
-/

import CompactCore.Streaming.Block

set_option relaxedAutoImplicit false
set_option autoImplicit false

namespace CompactCore.Streaming

open Wire CompactError

/-! ### Scanning -/

/-- Where a scan stands in a stream: its position, the counters that the next block must match, and
the metadata of the blocks before it. -/
structure ScanState where
  position : ℕ
  nextBlockIndex : UInt64
  nextRowIndex : UInt64
  nextOffset : UInt64
  metadata : List BlockMetadata
  deriving DecidableEq, Repr

def ScanState.start : ScanState := ⟨streamHeaderLen, 0, 0, UInt64.ofNat streamHeaderLen, []⟩

/-- The block must be the next one. -/
def ScanState.expectNext (s : ScanState) (parsed : ParsedBlockPayload) : Result Unit := do
  failIf (parsed.blockIndex ≠ s.nextBlockIndex)
    (invalidInput "stream block index is not sequential")
  failIf (parsed.firstRowIndex ≠ s.nextRowIndex)
    (invalidInput "stream block first row index is not sequential")

/-- Count a block.  The readers differ in the texts of their errors. -/
def ScanState.count (s : ScanState) (indexOverflow rowOverflow offsetOverflow : String)
    (block : BlockMetadata) : Result ScanState := do
  let nextBlockIndex ← okOr (invalidInput indexOverflow) (checkedAdd s.nextBlockIndex 1)
  let nextRowIndex ← okOr (invalidInput rowOverflow) (checkedAdd s.nextRowIndex block.rowCount)
  let nextOffset ← okOr (invalidInput offsetOverflow) (checkedAdd s.nextOffset block.compressedSize)
  return { s with
    nextBlockIndex := nextBlockIndex
    nextRowIndex := nextRowIndex
    nextOffset := nextOffset
    metadata := s.metadata ++ [block] }

/-! ### Reading moves forward -/

theorem readExactInvalid_forward (err : String) (len : ℕ) :
    Reader.Forward (readExactInvalid err len) := Reader.Forward.readExact _ _ _

theorem readIndexEntries_forward (index n : ℕ) : Reader.Forward (readIndexEntries index n) := by
  induction n generalizing index with
  | zero => exact .pure _
  | succ n ih =>
      exact (readExactInvalid_forward _ _).bind fun _ => (Reader.Forward.lift _).bind fun _ =>
        (ih _).bind fun _ => .pure _

theorem readRecordAfterMagic_forward (magic : Option (List UInt8)) :
    Reader.Forward (readRecordAfterMagic magic) := by
  cases magic with
  | none => exact .pure _
  | some magic =>
      by_cases hindex : magic = indexMagicV1
      · subst hindex
        rw [readRecordAfterMagic_index]
        exact ((Reader.Forward.readUInt64 fun _ => readExactInvalid_forward _ _).bind fun _ =>
          (Reader.Forward.lift _).bind fun _ => (Reader.Forward.lift _).bind fun _ =>
            readIndexEntries_forward _ _).bind fun _ => .pure _
      · rw [readRecordAfterMagic_frame hindex]
        exact ((Reader.Forward.lift _).bind fun _ => (readExactInvalid_forward _ _).bind fun _ =>
          (Reader.Forward.lift _).bind fun _ => (Reader.Forward.lift _).bind fun _ =>
            (Reader.Forward.lift _).bind fun _ => (readExactInvalid_forward _ _).bind fun _ =>
              .pure _).bind fun _ => .pure _

/-- A record takes at least a byte. -/
theorem readNextRecordFrom_lt {data : List UInt8} {c c' : ℕ} {record : StreamRecord}
    (h : readNextRecordFrom data c = .ok (record, c')) (hrecord : record ≠ .eof) :
    c < data.length ∧ c < c' := by
  simp only [readNextRecordFrom, Reader.bind_ok] at h
  obtain ⟨magic, c₁, hmagic, h⟩ := h
  simp only [readNextMagic, Reader.bind_ok, Reader.remaining_ok, and_assoc, exists_and_left,
    exists_eq_left'] at hmagic
  cases hrem : data.length - c with
  | zero =>
      rw [hrem] at hmagic
      obtain ⟨rfl, rfl⟩ := Reader.pure_ok.1 hmagic
      exact absurd (Reader.pure_ok.1 h).1.symm hrecord
  | succ n =>
      rw [hrem] at hmagic
      simp only [readExactInvalid, Reader.bind_ok, Reader.pure_ok] at hmagic
      obtain ⟨first, _, hfirst, rest, _, hrest, -, rfl⟩ := hmagic
      have h₁ := (readExact_at hfirst).2.2
      have h₂ := (readExact_at hrest).2.2
      have h₃ := readRecordAfterMagic_forward _ data _ c' record h
      exact ⟨by omega, by omega⟩

section

variable [Crc32Fast]

/-! ### Scanning a log -/

/-- Where the block behind some blocks starts. -/
def streamEnd (blocks : List Block) : ℕ := streamHeaderLen + (blockLog.flat blocks).length

theorem streamEnd_snoc (blocks : List Block) (block : Block) :
    streamEnd (blocks ++ [block]) = streamEnd blocks + block.frame.length := by
  rw [streamEnd, streamEnd, LogFormat.flat_append, LogFormat.flat_singleton, blockLog_bytes,
    List.length_append, Nat.add_assoc]

/-- A scan has counted some blocks. -/
structure ScanState.Counts (s : ScanState) (blocks : List Block) : Prop where
  index_eq : s.nextBlockIndex.toNat = blocks.length
  row_eq : s.nextRowIndex.toNat = blockRows blocks
  offset_eq : s.nextOffset.toNat = streamEnd blocks
  metadata_eq : s.metadata = metadataFrom streamHeaderLen blocks

theorem ScanState.start_counts : ScanState.start.Counts [] := ⟨rfl, rfl, rfl, rfl⟩

variable {data : List UInt8} {s : ScanState} {blocks : List Block} {block : Block}

/-- A block that the log accepts is the next one for the scan, and no other is. -/
theorem ScanState.Counts.expectNext_ok (h : s.Counts blocks) {u : Unit} :
    s.expectNext block.parsed = .ok u ↔
      block.blockIndex.toNat = blocks.length ∧ block.firstRowIndex.toNat = blockRows blocks := by
  simp only [expectNext, bind_ok, failIf_ok, not_not, ← h.index_eq, ← h.row_eq, UInt64.toNat_inj]
  simp only [Block.parsed, exists_const]

/-- Counting a block of a log succeeds if the row count fits in a word. -/
theorem ScanState.Counts.count_ok (h : s.Counts blocks) (hfit : Fits data)
    (hlog : blockLog.Holds data streamHeaderLen (blocks ++ [block]))
    (hrows : blockRows (blocks ++ [block]) < 2 ^ 64)
    (indexOverflow rowOverflow offsetOverflow : String) :
    ∃ s', s.count indexOverflow rowOverflow offsetOverflow (block.metadata (streamEnd blocks)) =
        .ok s' ∧ s'.position = s.position ∧ s'.Counts (blocks ++ [block]) := by
  have hend : streamEnd (blocks ++ [block]) ≤ data.length := hlog.le
  have hcount := LogFormat.length_le_flat hlog.1
  have hlen : (UInt64.ofNat block.frame.length).toNat = block.frame.length := toNat_ofNat (by
    rw [streamEnd_snoc] at hend
    rw [Fits, wordSize] at hfit
    omega)
  rw [Fits, wordSize] at hfit
  rw [streamEnd] at hend
  rw [List.length_append, List.length_singleton] at hcount
  rw [blockRows_append, blockRows_singleton] at hrows
  refine ⟨⟨s.position, UInt64.ofNat (blocks.length + 1),
    UInt64.ofNat (blockRows (blocks ++ [block])), UInt64.ofNat (streamEnd (blocks ++ [block])),
    s.metadata ++ [block.metadata (streamEnd blocks)]⟩, ?_, rfl, ?_, ?_, ?_, ?_⟩
  · simp only [count, bind_ok, okOr_ok, checkedAdd_eq_some, pure_ok, h.index_eq, h.row_eq,
      h.offset_eq]
    refine ⟨_, toNat_ofNat (show blocks.length + 1 < 2 ^ 64 by omega), _, ?_, _, ?_, rfl⟩
    · rw [toNat_ofNat (by rwa [blockRows_append, blockRows_singleton]), blockRows_append,
        blockRows_singleton]
      rfl
    · rw [toNat_ofNat (by rw [streamEnd]; omega), streamEnd_snoc]
      exact congrArg _ hlen.symm
  · rw [toNat_ofNat (by omega), List.length_append, List.length_singleton]
  · rw [toNat_ofNat (by rwa [blockRows_append, blockRows_singleton])]
  · rw [toNat_ofNat (by rw [streamEnd]; omega)]
  · rw [metadataFrom_append, ← h.metadata_eq]
    rfl

/-- Counting a block fails if the row count overflows. -/
theorem ScanState.Counts.count_error (h : s.Counts blocks)
    (hrows : ¬blockRows (blocks ++ [block]) < 2 ^ 64)
    (indexOverflow rowOverflow offsetOverflow : String) :
    ∃ e, s.count indexOverflow rowOverflow offsetOverflow (block.metadata (streamEnd blocks)) =
      .error e := by
  cases hcount : s.count indexOverflow rowOverflow offsetOverflow
      (block.metadata (streamEnd blocks)) with
  | error e => exact ⟨e, rfl⟩
  | ok s' =>
      simp only [count, bind_ok, okOr_ok, checkedAdd_eq_some, h.row_eq] at hcount
      obtain ⟨_, -, rows, hsum, -⟩ := hcount
      have hlt := rows.toNat_lt
      rw [blockRows_append, blockRows_singleton] at hrows
      exact absurd (hsum ▸ hlt) hrows

/-- **The record at a block of a log** is the frame of the block, and opens. -/
theorem record_block (hfit : Fits data)
    (hlog : blockLog.Holds data streamHeaderLen (blocks ++ [block])) :
    readNextRecordFrom data (streamEnd blocks) =
        .ok (.frame block.frame, streamEnd (blocks ++ [block])) ∧
      openFrame block.frame = .ok (block.payload, block.parsed) ∧ Fits block.frame := by
  obtain ⟨-, hacc, hat⟩ := LogFormat.holds_snoc.1 hlog
  have hfit' : Fits block.frame := by
    have hle := hat.le
    rw [blockLog_bytes] at hle
    rw [Fits] at hfit ⊢
    omega
  refine ⟨?_, (openFrame_ok hfit').2 ⟨block, rfl, rfl, rfl⟩, hfit'⟩
  rw [streamEnd_snoc]
  exact readNextRecordFrom_block hfit hacc.1 hat

/-- **Behind a complete log** a frame that opens is out of sequence. -/
theorem record_complete {frame payload : List UInt8} {parsed : ParsedBlockPayload} {c' : ℕ}
    (hfit : Fits data) (hlog : blockLog.Complete data streamHeaderLen blocks)
    (hrecord : readNextRecordFrom data (streamEnd blocks) = .ok (.frame frame, c'))
    (hopen : openFrame frame = .ok (payload, parsed)) (h : s.Counts blocks) (u : Unit) :
    s.expectNext parsed ≠ .ok u := by
  obtain ⟨block, rfl, rfl, rfl, hmax, hat, -⟩ := openFrame_record hfit hrecord hopen
  rw [ne_eq, h.expectNext_ok]
  intro hnext
  exact hlog.2 block ⟨hmax, hnext⟩ hat

/-! ### Streams -/

/-- The footer of some blocks, if the stream is sealed. -/
def footerOf (blocks : List Block) (sealed : Bool) : List UInt8 :=
  if sealed then indexFooter (metadataFrom streamHeaderLen blocks) else []

/-- A byte string is a stream of blocks. -/
structure Stream (data : List UInt8) (blocks : List Block) (sealed : Bool) : Prop where
  chain : blockLog.Chain [] blocks
  data_eq : data = writeStreamHeader ++ (blockLog.flat blocks ++ footerOf blocks sealed)
  length_le : sealed = true → blocks.length ≤ maxStreamBlocks

omit [Crc32Fast] in
theorem length_writeStreamHeader : writeStreamHeader.length = streamHeaderLen := by decide

omit [Crc32Fast] in
theorem header_le (h : At data 0 writeStreamHeader) : streamHeaderLen ≤ data.length := by
  have hle := h.le
  rwa [length_writeStreamHeader, Nat.zero_add] at hle

theorem Stream.header {sealed : Bool} (h : Stream data blocks sealed) :
    At data 0 writeStreamHeader := by
  rw [h.data_eq]
  exact at_mid [] writeStreamHeader _

theorem Stream.holds {sealed : Bool} (h : Stream data blocks sealed) :
    blockLog.Holds data streamHeaderLen blocks := by
  refine ⟨h.chain, ?_⟩
  rw [h.data_eq, ← List.append_assoc]
  exact at_mid writeStreamHeader _ _

/-- Behind the blocks of a stream stands its end. -/
theorem Stream.record_end {sealed : Bool} (h : Stream data blocks sealed) (hfit : Fits data) :
    readNextRecordFrom data (streamEnd blocks) =
      .ok (if sealed then .index (metadataFrom streamHeaderLen blocks) else .eof, data.length) := by
  have hlen := congrArg List.length h.data_eq
  rw [List.length_append, List.length_append, length_writeStreamHeader] at hlen
  cases sealed with
  | false =>
      refine (readNextRecordFrom_eof hfit).2 ⟨?_, ?_⟩ <;>
        simp only [footerOf, Bool.false_eq_true, if_false, List.length_nil] at hlen <;>
        rw [streamEnd] <;> omega
  | true =>
      refine (readNextRecordFrom_index hfit).2 ⟨?_, indexedFrom_metadata h.chain _, ?_, ?_⟩
      · rw [length_metadataFrom]
        exact h.length_le rfl
      · have hat := at_mid (writeStreamHeader ++ blockLog.flat blocks) (footerOf blocks true) []
        rw [List.append_nil, List.append_assoc, ← h.data_eq, List.length_append,
          length_writeStreamHeader] at hat
        exact hat
      · rw [hlen, ← Nat.add_assoc]
        rfl

/-- The blocks of a stream are its complete log. -/
theorem Stream.complete {sealed : Bool} (h : Stream data blocks sealed) (hfit : Fits data) :
    blockLog.Complete data streamHeaderLen blocks := by
  refine ⟨h.holds, ?_⟩
  intro block hacc hat
  obtain ⟨hrecord, -⟩ := record_block hfit (LogFormat.holds_snoc.2 ⟨h.holds, hacc, hat⟩)
  rw [h.record_end hfit] at hrecord
  cases sealed <;> simp at hrecord

/-- A log with an end behind it is a stream. -/
theorem stream_of_record {record : StreamRecord} {c' : ℕ} (hfit : Fits data)
    (hheader : At data 0 writeStreamHeader) (hlog : blockLog.Holds data streamHeaderLen blocks)
    (hrecord : readNextRecordFrom data (streamEnd blocks) = .ok (record, c'))
    (hend : data.length ≤ c') :
    (record = .eof → Stream data blocks false) ∧
      (record = .index (metadataFrom streamHeaderLen blocks) → Stream data blocks true) := by
  have hbody : At data 0 (writeStreamHeader ++ blockLog.flat blocks) := by
    rw [at_append, length_writeStreamHeader]
    exact ⟨hheader, by rw [Nat.zero_add]; exact hlog.2⟩
  have hlen : (writeStreamHeader ++ blockLog.flat blocks).length = streamEnd blocks := by
    rw [List.length_append, length_writeStreamHeader]
    rfl
  constructor
  · intro h
    subst h
    obtain ⟨hle, rfl⟩ := (readNextRecordFrom_eof hfit).1 hrecord
    refine ⟨hlog.1, ?_, fun h => by cases h⟩
    have hbodyLe := hbody.le
    rw [footerOf, if_neg (by decide), List.append_nil]
    exact hbody.eq_self (by omega)
  · intro h
    subst h
    obtain ⟨hle, -, hat, rfl⟩ := (readNextRecordFrom_index hfit).1 hrecord
    have hatLe := hat.le
    refine ⟨hlog.1, ?_, fun _ => by rwa [length_metadataFrom] at hle⟩
    rw [footerOf, if_pos rfl, ← List.append_assoc]
    refine At.eq_self ?_ (by rw [List.length_append, hlen]; omega)
    rw [at_append, hlen, Nat.zero_add]
    exact ⟨hbody, hat⟩

end

end CompactCore.Streaming
