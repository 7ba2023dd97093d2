/-
**Sequences of writer calls.**

A block writer is a mutable value: its caller writes lines and flushes blocks in any order, and goes
on after a call that failed.  Whatever the calls were, the output is the stream header followed by
the frames that the metadata describes, and a call that fails has written nothing, or one complete
block.  What the writer does not ask about are the limits of the readers: a block whose payload the
readers find too large, or rows whose bytes overflow their sum, make a stream that is sealed and not
accepted.

Main definitions:

* `CompactCore.Streaming.Call`, `CompactCore.Streaming.Run` — calls, and what they lead to;
* `CompactCore.Streaming.RowGroupBuffer.Readable`, `CompactCore.Streaming.Flushes` — the limits of
  the readers, as a condition on the row groups that a call writes;
* `CompactCore.Streaming.Cut.Bounded` — row groups within the block options;
* `CompactCore.Streaming.Session` — the invariant of a writer;
* `CompactCore.Streaming.Call.next`, `CompactCore.Streaming.callsWithin` — running calls, and the
  condition on them as a test.

Main results:

* `CompactCore.Streaming.Session.call_ok`, `CompactCore.Streaming.Session.call_error` — what one
  call does;
* `CompactCore.Streaming.Run.session` — **what any sequence of calls keeps**;
* `CompactCore.Streaming.Run.output` — **the output, the rows and the seal**.
-/

import CompactCore.Io.RoundTrip
import CompactCore.Streaming.Recovery
import CompactCore.Streaming.RoundTrip

set_option relaxedAutoImplicit false
set_option autoImplicit false

namespace CompactCore.Streaming

open Wire CompactError Io

/-! ### Row groups within the block options -/

/-- The closed row groups are within the block options. -/
def Cut.GroupsWithin (options : BlockOptions) (cut : Cut) : Prop :=
  ∀ rows ∈ cut.groups, rows ≠ [] ∧ rows.length ≤ options.maxRowsPerBlock ∧
    (rows.map String.utf8ByteSize).sum ≤ options.maxUncompressedBytesPerBlock

/-- The closed row groups are within the block options, and the open one is below them. -/
structure Cut.Bounded (options : BlockOptions) (cut : Cut) : Prop where
  groups : cut.GroupsWithin options
  current_rows : cut.current.length < options.maxRowsPerBlock
  current_bytes : (cut.current.map String.utf8ByteSize).sum < options.maxUncompressedBytesPerBlock

namespace Cut

variable {options : BlockOptions} {cut : Cut} {row : String}

/-- There is room for a row in the open row group. -/
structure HasRoom (options : BlockOptions) (row : String) (cut : Cut) : Prop where
  groups : cut.GroupsWithin options
  rows_le : cut.current.length + 1 ≤ options.maxRowsPerBlock
  bytes_le : (cut.current.map String.utf8ByteSize).sum + row.utf8ByteSize ≤
    options.maxUncompressedBytesPerBlock

theorem bounded_empty (hrows : options.maxRowsPerBlock ≠ 0)
    (hbytes : options.maxUncompressedBytesPerBlock ≠ 0) : Cut.empty.Bounded options where
  groups _ hmem := by cases hmem
  current_rows := Nat.pos_of_ne_zero hrows
  current_bytes := Nat.pos_of_ne_zero hbytes

/-- The row group that is closed is within the options, and the one that is opened has no rows. -/
theorem bounded_flush (hgroups : cut.GroupsWithin options) (hne : cut.current ≠ [])
    (hrows : cut.current.length ≤ options.maxRowsPerBlock)
    (hbytes : (cut.current.map String.utf8ByteSize).sum ≤ options.maxUncompressedBytesPerBlock)
    (hpos : ∀ row ∈ cut.current, 0 < row.utf8ByteSize) : cut.flush.Bounded options where
  groups := by
    intro rows hmem
    rcases List.mem_append.1 hmem with hmem | hmem
    · exact hgroups rows hmem
    · obtain rfl := List.mem_singleton.1 hmem
      exact ⟨hne, hrows, hbytes⟩
  current_rows := lt_of_lt_of_le (List.length_pos_of_ne_nil hne) hrows
  current_bytes := by
    have hpos := (List.length_pos_of_ne_nil hne).trans_le (length_le_bytes hpos)
    exact lt_of_lt_of_le hpos hbytes

/-- Before a row is added, there is room for it. -/
theorem Bounded.hasRoom (h : cut.Bounded options)
    (hrow : row.utf8ByteSize ≤ options.maxUncompressedBytesPerBlock)
    (hpos : ∀ row ∈ cut.current, 0 < row.utf8ByteSize) :
    (cut.flushIf (RowGroupBuffer.wouldExceed row options)).HasRoom options row := by
  obtain ⟨hgroups, hrows, hbytes⟩ := h
  rw [flushIf]
  split
  · rename_i hexceed
    have hflush := bounded_flush hgroups (RowGroupBuffer.ne_nil_of_wouldExceed hexceed) hrows.le
      hbytes.le hpos
    exact ⟨hflush.groups, hflush.current_rows, (Nat.zero_add row.utf8ByteSize).trans_le hrow⟩
  · rename_i hfits
    refine ⟨hgroups, hrows, ?_⟩
    rw [RowGroupBuffer.wouldExceed] at hfits
    split at hfits
    · rename_i hempty
      rw [RowGroupBuffer.isEmpty_ofRows.1 hempty]
      exact (Nat.zero_add row.utf8ByteSize).trans_le hrow
    · rw [Bool.or_eq_true, not_or, decide_eq_true_iff, decide_eq_true_iff] at hfits
      exact Nat.le_of_not_lt hfits.2

theorem current_flushIf {test : RowGroupBuffer → Bool} {row : String}
    (h : row ∈ (cut.flushIf test).current) : row ∈ cut.current := by
  rw [flushIf] at h
  split at h
  · cases h
  · exact h

/-- Where there was room for a row, the row groups are within the options with it. -/
theorem HasRoom.push (h : cut.HasRoom options row)
    (hpos : ∀ row' ∈ (cut.push row).current, 0 < row'.utf8ByteSize) :
    ((cut.push row).flushIf (RowGroupBuffer.reachedLimit options)).Bounded options := by
  obtain ⟨hgroups, hrows, hbytes⟩ := h
  have hlen : (cut.push row).current.length = cut.current.length + 1 := by simp [Cut.push]
  have hsum : ((cut.push row).current.map String.utf8ByteSize).sum =
      (cut.current.map String.utf8ByteSize).sum + row.utf8ByteSize := by simp [Cut.push]
  rw [flushIf]
  split
  · exact bounded_flush hgroups current_push_ne_nil (hlen ▸ hrows) (hsum ▸ hbytes) hpos
  · rename_i hbelow
    rw [RowGroupBuffer.reachedLimit, Bool.or_eq_true, not_or, decide_eq_true_iff,
      decide_eq_true_iff] at hbelow
    exact ⟨hgroups, Nat.lt_of_not_le hbelow.1, Nat.lt_of_not_le hbelow.2⟩

/-- **Adding a row keeps the row groups within the options.** -/
theorem Bounded.add (h : cut.Bounded options)
    (hrow : IsRow options.maxUncompressedBytesPerBlock row)
    (hpos : ∀ row ∈ cut.current, 0 < row.utf8ByteSize) : (cut.add options row).Bounded options := by
  refine (h.hasRoom hrow.size hpos).push ?_
  intro row' hmem
  rcases List.mem_append.1 hmem with hmem | hmem
  · exact hpos row' (current_flushIf hmem)
  · rw [List.mem_singleton.1 hmem]
    exact hrow.size_pos

end Cut

/-! ### Calls -/

/-- A call of a writer. -/
inductive Call
  | writeJsonlLine (line : String)
  | flushBlock
  deriving DecidableEq, Repr

/-- The line that a call brings. -/
def Call.line : Call → Option String
  | .writeJsonlLine line => some line
  | .flushBlock => none

/-- The raw bytes of the blocks that a writer has written. -/
def JsonlBlockWriter.rawWritten (w : JsonlBlockWriter) : ℕ :=
  blockSum (·.uncompressedSize) w.metadata

/-- The open row groups that a call closes, each with the raw bytes in front of it. -/
inductive Flushes (options : BlockOptions) (w : JsonlBlockWriter) : Call → ℕ → RowGroupBuffer → Prop
  | flushBlock : Flushes options w .flushBlock w.rawWritten w.current
  | before {line row : String} (exceeds : w.current.wouldExceed row options)
      (accept : acceptLine options.maxUncompressedBytesPerBlock line = .ok (some row)) :
      Flushes options w (.writeJsonlLine line) w.rawWritten w.current
  | alone {line row : String} (exceeds : w.current.wouldExceed row options)
      (accept : acceptLine options.maxUncompressedBytesPerBlock line = .ok (some row))
      (reached : (RowGroupBuffer.empty.pushLine row).reachedLimit options) :
      Flushes options w (.writeJsonlLine line) (w.rawWritten + w.current.rawBytes)
        (RowGroupBuffer.empty.pushLine row)
  | after {line row : String} (fits : ¬w.current.wouldExceed row options)
      (accept : acceptLine options.maxUncompressedBytesPerBlock line = .ok (some row))
      (reached : (w.current.pushLine row).reachedLimit options) :
      Flushes options w (.writeJsonlLine line) w.rawWritten (w.current.pushLine row)

section

variable [SerdeJson] (schema : Schema)

/-- If a row group can be encoded, the readers take its block, behind `written` raw bytes. -/
def RowGroupBuffer.Readable (written : ℕ) (buffer : RowGroupBuffer) : Prop :=
  ∀ group, encodeJsonlRowGroup buffer.data schema = .ok group →
    blockHeaderLen + group.payload.length ≤ maxEncodedBlockBytes ∧
      written + buffer.rawBytes < 2 ^ 64

variable [Crc32Fast] (options : BlockOptions)

def Call.run : Call → EStateM CompactError JsonlBlockWriter Unit
  | .writeJsonlLine line => JsonlBlockWriter.writeJsonlLine schema options line
  | .flushBlock => JsonlBlockWriter.flushBlock schema

/-- A call closes only row groups whose blocks the readers take. -/
def Call.Within (w : JsonlBlockWriter) (call : Call) : Prop :=
  ∀ written buffer, Flushes options w call written buffer → buffer.Readable schema written

/-- `Run schema options start calls allOk w`: the calls lead from `start` to `w`; a call that fails
leaves the writer as it is then. -/
inductive Run (start : JsonlBlockWriter) : List Call → Bool → JsonlBlockWriter → Prop
  | start : Run start [] true start
  | ok {calls : List Call} {allOk : Bool} {w w' : JsonlBlockWriter} {call : Call}
      (init : Run start calls allOk w) (within : call.Within schema options w)
      (run : call.run schema options w = .ok () w') : Run start (calls ++ [call]) allOk w'
  | error {calls : List Call} {allOk : Bool} {w w' : JsonlBlockWriter} {call : Call}
      {e : CompactError} (init : Run start calls allOk w) (within : call.Within schema options w)
      (run : call.run schema options w = .error e w') : Run start (calls ++ [call]) false w'

/-- The invariant of a writer. -/
structure Session (base : List UInt8) (cut : Cut) (blocks : List Block) (w : JsonlBlockWriter) :
    Prop where
  wrote : w.Wrote schema base [] cut blocks
  isRow : ∀ row ∈ cut.rows, IsRow options.maxUncompressedBytesPerBlock row
  payload_le : ∀ block ∈ blocks, block.payload.length ≤ maxEncodedBlockBytes
  raw_lt : blockRaw blocks < 2 ^ 64

end

section

variable [Crc32Fast] [SerdeJson] {schema : Schema} {options : BlockOptions} {base : List UInt8}
  {cut : Cut} {blocks : List Block} {w w' : JsonlBlockWriter}

omit [Crc32Fast] in
/-- The last block holds the last row group. -/
theorem Encoded.last {old : List Block} {groups : List (List String)} {rows : List String}
    {block : Block} (h : Encoded schema old (groups ++ [rows]) (blocks ++ [block])) :
    ∃ group, encodeJsonlRowGroup (String.join rows) schema = .ok group ∧
      block.IsNext (old ++ blocks) group := by
  generalize hgroups : groups ++ [rows] = groups', hblocks : blocks ++ [block] = blocks' at h
  cases h with
  | nil => simp at hgroups
  | snoc _ hgroup hnext =>
      obtain ⟨-, hrows⟩ := List.append_inj' hgroups rfl
      obtain ⟨rfl, hblock⟩ := List.append_inj' hblocks rfl
      cases hrows
      cases hblock
      exact ⟨_, hgroup, hnext⟩

omit [Crc32Fast] in
theorem Encoded.rows_le_raw {old : List Block} {groups : List (List String)} {maxRowLen : ℕ}
    (h : Encoded schema old groups blocks)
    (hrows : ∀ rows ∈ groups, ∀ row ∈ rows, IsRow maxRowLen row) :
    blockRows blocks ≤ blockRaw blocks := by
  induction h with
  | nil => exact le_refl _
  | @snoc groups blocks rows group block _ hgroup hnext ih =>
      have hlast := hrows rows (by simp)
      obtain ⟨hcount, hraw⟩ := encodeJsonlRowGroup_counts hgroup hlast
      have hle := length_le_bytes fun row hrow => (hlast row hrow).size_pos
      have hinit := ih fun g hg => hrows g (List.mem_append_left _ hg)
      have hblock : blockRaw [block] = block.rawSize.toNat := by simp [blockRaw]
      rw [blockRows_append, blockRaw_append, blockRows_singleton, hblock, hnext.rowCount_eq,
        hnext.rawSize_eq, hcount, hraw]
      omega

omit [SerdeJson] in
/-- The frames of some blocks are no longer than their number allows. -/
theorem length_flat_le {bound : ℕ} (h : ∀ block ∈ blocks, block.payload.length ≤ bound) :
    (blockLog.flat blocks).length ≤ blocks.length * (frameHeaderLen + bound) := by
  induction blocks with
  | nil => exact Nat.zero_le _
  | cons block blocks ih =>
      have hfirst := h block List.mem_cons_self
      have hrest := ih fun b hb => h b (List.mem_cons_of_mem _ hb)
      rw [LogFormat.flat_cons, List.length_append, List.length_cons, blockLog_bytes,
        block.length_frame, Nat.succ_mul]
      omega

namespace Session

theorem rawWritten_eq (h : Session schema options base cut blocks w) :
    w.rawWritten = blockRaw blocks := by
  rw [JsonlBlockWriter.rawWritten, h.wrote.metadata_eq, blockSum_uncompressedSize]

theorem isEmpty_current (h : Session schema options base cut blocks w) (hnil : cut.current = []) :
    w.current.isEmpty = true := by
  rw [h.wrote.current_eq]
  exact RowGroupBuffer.isEmpty_ofRows.2 hnil

theorem isRow_current (h : Session schema options base cut blocks w) :
    ∀ row ∈ cut.current, IsRow options.maxUncompressedBytesPerBlock row :=
  fun row hrow => h.isRow row (List.mem_append_right _ hrow)

theorem isRow_groups (h : Session schema options base cut blocks w) :
    ∀ rows ∈ cut.groups, ∀ row ∈ rows, IsRow options.maxUncompressedBytesPerBlock row :=
  fun rows hrows row hrow => h.isRow row
    (List.mem_append_left _ (List.mem_flatten.2 ⟨rows, hrows, hrow⟩))

theorem length_le (h : Session schema options base cut blocks w) :
    blocks.length ≤ maxStreamBlocks := by
  rcases h.wrote.bounded with rfl | hle
  · exact Nat.zero_le _
  · exact hle

/-- There is room for a row group that is readable. -/
theorem room (h : Session schema options base cut blocks w)
    (hread : w.current.Readable schema w.rawWritten)
    (hmax : w.blocksWritten.toNat < maxStreamBlocks)
    {group : JsonlRowGroup} (hgroup : encodeJsonlRowGroup w.current.data schema = .ok group) :
    w.Room group := by
  obtain ⟨hpayload, hraw⟩ := hread group hgroup
  rw [h.rawWritten_eq, h.wrote.current_eq] at hraw
  rw [h.wrote.current_eq] at hgroup
  obtain ⟨hcount, hbytes⟩ := encodeJsonlRowGroup_counts hgroup h.isRow_current
  have hcurrent := length_le_bytes fun row hrow => (h.isRow_current row hrow).size_pos
  have hold := h.wrote.encoded.rows_le_raw h.isRow_groups
  have hflat := length_flat_le h.payload_le
  have hrow : w.rowsWritten.toNat = blockRows blocks := h.wrote.row_eq
  have hindex : w.blocksWritten.toNat = blocks.length := h.wrote.index_eq
  have hoffset : w.bytesWritten.toNat = streamHeaderLen + (blockLog.flat blocks).length :=
    h.wrote.offset_eq
  have hsum : blockRaw blocks + (cut.current.map String.utf8ByteSize).sum < 2 ^ 64 := hraw
  refine ⟨hmax, by omega, by omega, ?_⟩
  have hbound : blocks.length * (frameHeaderLen + maxEncodedBlockBytes) ≤
      maxStreamBlocks * (frameHeaderLen + maxEncodedBlockBytes) :=
    Nat.mul_le_mul_right _ h.length_le
  have hword : streamHeaderLen + maxStreamBlocks * (frameHeaderLen + maxEncodedBlockBytes) +
      (frameHeaderLen + maxEncodedBlockBytes) < 2 ^ 64 := by decide
  omega

/-- **A flush that succeeds** writes the block of the open row group. -/
theorem flush_ok (h : Session schema options base cut blocks w) (hne : cut.current ≠ [])
    (hread : w.current.Readable schema w.rawWritten)
    (hrun : JsonlBlockWriter.flushBlock schema w = .ok () w') :
    ∃ block, Session schema options base cut.flush (blocks ++ [block]) w' ∧
      w'.rawWritten = w.rawWritten + w.current.rawBytes := by
  obtain ⟨block, hwrote⟩ := h.wrote.flushBlock hne hrun
  obtain ⟨group, hgroup, hnext⟩ := hwrote.encoded.last
  have hcurrent := h.wrote.current_eq
  have hdata : w.current.data = String.join cut.current := by
    rw [hcurrent]
    rfl
  obtain ⟨hpayload, hraw⟩ := hread group (by rw [hdata]; exact hgroup)
  obtain ⟨-, hbytes⟩ := encodeJsonlRowGroup_counts hgroup h.isRow_current
  have hblock : blockRaw (blocks ++ [block]) = w.rawWritten + w.current.rawBytes := by
    have hsize : blockRaw [block] = block.rawSize.toNat := by simp [blockRaw]
    rw [blockRaw_append, hsize, hnext.rawSize_eq, hbytes, h.rawWritten_eq, hcurrent]
    rfl
  have hsession : Session schema options base cut.flush (blocks ++ [block]) w' := by
    refine ⟨hwrote, fun row hrow => h.isRow row (cut.rows_flush ▸ hrow), ?_, hblock ▸ hraw⟩
    intro b hb
    rcases List.mem_append.1 hb with hb | hb
    · exact h.payload_le b hb
    · rw [List.mem_singleton.1 hb, Block.length_payload, hnext.columnBlock_eq]
      exact hpayload
  exact ⟨block, hsession, hsession.rawWritten_eq.trans hblock⟩

/-- **A flush that fails** changes nothing. -/
theorem flush_error (h : Session schema options base cut blocks w)
    (hread : w.current.Readable schema w.rawWritten) {e : CompactError}
    (hrun : JsonlBlockWriter.flushBlock schema w = .error e w') : w' = w :=
  JsonlBlockWriter.flushBlock_error (fun hmax _ hgroup => h.room hread hmax hgroup) hrun

theorem push (h : Session schema options base cut blocks w) {row : String}
    (hrow : IsRow options.maxUncompressedBytesPerBlock row) :
    Session schema options base (cut.push row) blocks (w.pushLine row) := by
  obtain ⟨hencoded, hwriter, hcurrent, hindex, hrows, hoffset, hmetadata, hbounded⟩ := h.wrote
  refine ⟨⟨hencoded, hwriter, ?_, hindex, hrows, hoffset, hmetadata, hbounded⟩, ?_, h.payload_le,
    h.raw_lt⟩
  · rw [JsonlBlockWriter.pushLine, hcurrent, RowGroupBuffer.pushLine_ofRows]
    rfl
  · rw [Cut.rows_push]
    intro row' hrow'
    rcases List.mem_append.1 hrow' with hrow' | hrow'
    · exact h.isRow row' hrow'
    · rwa [List.mem_singleton.1 hrow']

/-- Closing the open row group if a test asks for it. -/
theorem flushIf_ok {test : RowGroupBuffer → Bool} (h : Session schema options base cut blocks w)
    (htest : test w.current → cut.current ≠ [])
    (hread : test w.current → w.current.Readable schema w.rawWritten)
    (hrun : flushIf JsonlBlockWriter.current (JsonlBlockWriter.flushBlock schema) test w =
      .ok () w') :
    ∃ blocks', Session schema options base (cut.flushIf test) blocks' w' ∧
      (blocks' = blocks ∨ ∃ block, blocks' = blocks ++ [block]) ∧
      w'.rawWritten = w.rawWritten + if test w.current then w.current.rawBytes else 0 := by
  rw [Streaming.flushIf_ok] at hrun
  rw [Cut.flushIf, ← h.wrote.current_eq]
  split at hrun
  · rename_i hyes
    obtain ⟨block, hsession, hraw⟩ := h.flush_ok (htest hyes) (hread hyes) hrun
    rw [if_pos hyes, if_pos hyes]
    exact ⟨_, hsession, Or.inr ⟨block, rfl⟩, hraw⟩
  · rename_i hno
    rw [if_neg hno, if_neg hno, ← hrun]
    exact ⟨blocks, h, Or.inl rfl, rfl⟩

theorem flushIf_error {test : RowGroupBuffer → Bool} (h : Session schema options base cut blocks w)
    (hread : test w.current → w.current.Readable schema w.rawWritten) {e : CompactError}
    (hrun : flushIf JsonlBlockWriter.current (JsonlBlockWriter.flushBlock schema) test w =
      .error e w') : w' = w := by
  obtain ⟨hyes, hflush⟩ := Streaming.flushIf_error.1 hrun
  exact h.flush_error (hread hyes) hflush

theorem ne_nil_of_wouldExceed (h : Session schema options base cut blocks w) {row : String}
    (hexceeds : w.current.wouldExceed row options) : cut.current ≠ [] := by
  rw [h.wrote.current_eq] at hexceeds
  exact RowGroupBuffer.ne_nil_of_wouldExceed hexceeds

/-- The row group that is closed behind an added row. -/
theorem readable_after {line row : String} {blocks' : List Block}
    (hwithin : (Call.writeJsonlLine line).Within schema options w)
    (haccept : acceptLine options.maxUncompressedBytesPerBlock line = .ok (some row))
    (h : Session schema options base cut blocks w)
    (h' : Session schema options base (cut.flushIf (RowGroupBuffer.wouldExceed row options)) blocks'
      w')
    (hraw : w'.rawWritten = w.rawWritten +
      if w.current.wouldExceed row options then w.current.rawBytes else 0)
    (hreached : (w'.pushLine row).current.reachedLimit options) :
    (w'.pushLine row).current.Readable schema (w'.pushLine row).rawWritten := by
  have hcurrent := h'.wrote.current_eq
  rw [Cut.flushIf, ← h.wrote.current_eq] at hcurrent
  show (w'.current.pushLine row).Readable schema w'.rawWritten
  replace hreached : (w'.current.pushLine row).reachedLimit options := hreached
  split at hcurrent
  · rename_i hexceeds
    rw [hcurrent] at hreached
    rw [hraw, if_pos hexceeds, hcurrent]
    exact hwithin _ _ (.alone hexceeds haccept hreached)
  · rename_i hfits
    rw [← h.wrote.current_eq] at hcurrent
    rw [hcurrent] at hreached
    rw [hraw, if_neg hfits, hcurrent]
    exact hwithin _ _ (.after hfits haccept hreached)

/-- **A call that succeeds** takes in the row of its line, and writes whole blocks. -/
theorem call_ok {call : Call} (h : Session schema options base cut blocks w)
    (hwithin : call.Within schema options w) (hrun : call.run schema options w = .ok () w') :
    ∃ cut' blocks' rows, Session schema options base cut' blocks' w' ∧
      acceptLines options.maxUncompressedBytesPerBlock call.line.toList = .ok rows ∧
      cut'.rows = cut.rows ++ rows ∧ (cut.Bounded options → cut'.Bounded options) := by
  cases call with
  | flushBlock =>
      replace hrun : JsonlBlockWriter.flushBlock schema w = .ok () w' := hrun
      by_cases hnil : cut.current = []
      · rw [(JsonlBlockWriter.flushBlock_empty (h.isEmpty_current hnil)).1 hrun]
        exact ⟨cut, blocks, [], h, rfl, (List.append_nil _).symm, id⟩
      · obtain ⟨block, hsession, -⟩ := h.flush_ok hnil (hwithin _ _ .flushBlock) hrun
        refine ⟨_, _, [], hsession, rfl, by rw [Cut.rows_flush, List.append_nil],
          fun hbounded => ?_⟩
        exact Cut.bounded_flush hbounded.groups hnil hbounded.current_rows.le
          hbounded.current_bytes.le fun row hrow => (h.isRow_current row hrow).size_pos
  | writeJsonlLine line =>
      simp only [Call.run, JsonlBlockWriter.writeJsonlLine, addLine, Method.bind_ok,
        Method.lift_ok] at hrun
      obtain ⟨accepted, _, ⟨haccept, rfl⟩, hrun⟩ := hrun
      have hlines : acceptLines options.maxUncompressedBytesPerBlock [line] =
          .ok (accepted.toList ++ []) :=
        acceptLines_cons.2 ⟨accepted, [], haccept, acceptLines_nil.2 rfl, rfl⟩
      rw [List.append_nil] at hlines
      cases accepted with
      | none =>
          obtain ⟨-, rfl⟩ := Method.pure_ok.1 hrun
          exact ⟨cut, blocks, [], h, hlines, (List.append_nil _).symm, id⟩
      | some row =>
          have hrow := isRow_of_acceptLine haccept
          obtain ⟨w₁, hfirst, hlast⟩ := addRow_ok.1 hrun
          obtain ⟨blocks₁, h₁, -, hraw⟩ := h.flushIf_ok h.ne_nil_of_wouldExceed
            (fun hexceeds => hwithin _ _ (.before hexceeds haccept)) hfirst
          obtain ⟨blocks₂, h₂, -, -⟩ := (h₁.push hrow).flushIf_ok
            (fun _ => Cut.current_push_ne_nil) (readable_after hwithin haccept h h₁ hraw) hlast
          refine ⟨_, blocks₂, [row], h₂, hlines, Cut.rows_add options cut row, fun hbounded => ?_⟩
          exact hbounded.add hrow fun row hrow => (h.isRow_current row hrow).size_pos

/-- **A call that fails** has written nothing, or one whole block. -/
theorem call_error {call : Call} {e : CompactError} (h : Session schema options base cut blocks w)
    (hwithin : call.Within schema options w) (hrun : call.run schema options w = .error e w') :
    ∃ cut' blocks', Session schema options base cut' blocks' w' ∧
      (blocks' = blocks ∨ ∃ block, blocks' = blocks ++ [block]) := by
  cases call with
  | flushBlock =>
      rw [h.flush_error (hwithin _ _ .flushBlock) hrun]
      exact ⟨cut, blocks, h, Or.inl rfl⟩
  | writeJsonlLine line =>
      simp only [Call.run, JsonlBlockWriter.writeJsonlLine, addLine, Method.bind_error,
        Method.lift_ok, Method.lift_error] at hrun
      rcases hrun with ⟨-, rfl⟩ | ⟨accepted, _, ⟨haccept, rfl⟩, hrun⟩
      · exact ⟨cut, blocks, h, Or.inl rfl⟩
      cases accepted with
      | none => exact (Method.pure_error.1 hrun).elim
      | some row =>
          have hread : w.current.wouldExceed row options →
              w.current.Readable schema w.rawWritten :=
            fun hexceeds => hwithin _ _ (.before hexceeds haccept)
          rcases addRow_error.1 hrun with hfirst | ⟨w₁, hfirst, hlast⟩
          · rw [h.flushIf_error hread hfirst]
            exact ⟨cut, blocks, h, Or.inl rfl⟩
          · obtain ⟨blocks₁, h₁, hblocks, hraw⟩ := h.flushIf_ok h.ne_nil_of_wouldExceed hread hfirst
            have hpush := h₁.push (isRow_of_acceptLine haccept)
            rw [hpush.flushIf_error (readable_after hwithin haccept h h₁ hraw) hlast]
            exact ⟨_, blocks₁, hpush, hblocks⟩

/-- The stream that a writer seals is accepted, with its metadata for a footer. -/
theorem finish {output : List UInt8}
    (h : Session schema options (output ++ writeStreamHeader) cut blocks w)
    (hread : w.current.Readable schema w.rawWritten)
    (hflush : JsonlBlockWriter.flushBlock schema w = .ok () w') :
    ∃ stream report, w.finish schema = .ok (output ++ stream) ∧
      inspectJsonlStream stream = .ok report ∧ report.footerIndex = some w'.metadata ∧
      report.blocks = w'.metadata := by
  obtain ⟨cut', blocks', h'⟩ : ∃ cut' blocks',
      Session schema options (output ++ writeStreamHeader) cut' blocks' w' := by
    by_cases hnil : cut.current = []
    · rw [(JsonlBlockWriter.flushBlock_empty (h.isEmpty_current hnil)).1 hflush]
      exact ⟨cut, blocks, h⟩
    · obtain ⟨block, hsession, -⟩ := h.flush_ok hnil hread hflush
      exact ⟨_, _, hsession⟩
  have hchain := h'.wrote.encoded.chain h'.payload_le
  have hmetadata : w'.metadata = metadataFrom streamHeaderLen blocks' := h'.wrote.metadata_eq
  have hstream :
      Stream (writeStreamHeader ++ (blockLog.flat blocks' ++ footerOf blocks' true)) blocks'
      true := ⟨hchain, rfl, fun _ => h'.length_le⟩
  have hrows := h'.wrote.encoded.rows_le_raw h'.isRow_groups
  have hfit : Fits (writeStreamHeader ++ (blockLog.flat blocks' ++ footerOf blocks' true)) := by
    have hflat := length_flat_le h'.payload_le
    have hbound := Nat.mul_le_mul_right (frameHeaderLen + maxEncodedBlockBytes) h'.length_le
    have hword : streamHeaderLen + (maxStreamBlocks * (frameHeaderLen + maxEncodedBlockBytes) +
        (12 + maxStreamBlocks * indexEntryLen)) < wordSize := by decide
    have hfooter : (footerOf blocks' true).length ≤ 12 + maxStreamBlocks * indexEntryLen := by
      have hle := Nat.mul_le_mul_right indexEntryLen h'.length_le
      rw [footerOf, if_pos rfl, length_indexFooter, length_metadataFrom]
      omega
    rw [Fits, List.length_append, List.length_append, length_writeStreamHeader]
    omega
  refine ⟨_, inspectOf blocks' true, ?_, (inspectJsonlStream_ok hfit).2
    ⟨blocks', true, hstream, lt_of_le_of_lt hrows h'.raw_lt, h'.raw_lt, rfl⟩, ?_, hmetadata.symm⟩
  · simp only [JsonlBlockWriter.finish, bind_ok, Method.exec_ok, pure_ok, writeIndexFooter_ok]
    refine ⟨w', ⟨(), hflush⟩, _, ⟨?_, rfl⟩, ?_⟩
    · have hword : maxStreamBlocks < 2 ^ 64 := by decide
      rw [hmetadata, length_metadataFrom]
      exact lt_of_le_of_lt h'.length_le hword
    · rw [h'.wrote.writer_eq, hmetadata, footerOf, if_pos rfl]
      simp only [List.append_assoc]
  · rw [hmetadata, inspectOf, if_pos rfl]

end Session

/-- **What any sequence of calls keeps.** -/
theorem Run.session {start : JsonlBlockWriter} {calls : List Call} {allOk : Bool}
    (hstart : Session schema options base .empty [] start)
    (hbounded : Cut.empty.Bounded options) (h : Run schema options start calls allOk w) :
    ∃ cut blocks, Session schema options base cut blocks w ∧ (allOk = true →
      acceptLines options.maxUncompressedBytesPerBlock (calls.filterMap Call.line) = .ok cut.rows ∧
        cut.Bounded options) := by
  induction h with
  | start => exact ⟨.empty, [], hstart, fun _ => ⟨acceptLines_nil.2 rfl, hbounded⟩⟩
  | @ok calls allOk w w' call _ hwithin hrun ih =>
      obtain ⟨cut, blocks, hsession, hspec⟩ := ih
      obtain ⟨cut', blocks', rows, hsession', hrows, hcut, hkeep⟩ := hsession.call_ok hwithin hrun
      refine ⟨cut', blocks', hsession', fun hall => ?_⟩
      obtain ⟨hlines, hbelow⟩ := hspec hall
      have hcall : [call].filterMap Call.line = call.line.toList := by cases call <;> rfl
      rw [List.filterMap_append, hcall, hcut]
      exact ⟨acceptLines_append hlines hrows, hkeep hbelow⟩
  | @error calls allOk w w' call e _ hwithin hrun ih =>
      obtain ⟨cut, blocks, hsession, -⟩ := ih
      obtain ⟨cut', blocks', hsession', -⟩ := hsession.call_error hwithin hrun
      exact ⟨cut', blocks', hsession', fun hall => by cases hall⟩

/-- **The output, the rows and the seal** of a writer, behind any sequence of calls that write only
blocks that the readers take. -/
theorem Run.output {output : List UInt8} {start : JsonlBlockWriter} {calls : List Call}
    {allOk : Bool} (hnew : JsonlBlockWriter.new output options = .ok start)
    (h : Run schema options start calls allOk w) :
    ∃ (cut : Cut) (blocks : List Block),
      w.writer = output ++ (writeStreamHeader ++ blockLog.flat blocks) ∧
      w.metadata = metadataFrom streamHeaderLen blocks ∧ IndexedFrom 0 w.metadata ∧
      Encoded schema [] cut.groups blocks ∧ w.current = RowGroupBuffer.ofRows cut.current ∧
      (allOk = true →
        acceptLines options.maxUncompressedBytesPerBlock (calls.filterMap Call.line) =
          .ok (cut.groups.flatten ++ cut.current) ∧ cut.Bounded options) ∧
      (∀ (call : Call) (e : CompactError) (w' : JsonlBlockWriter), call.Within schema options w →
         call.run schema options w = .error e w' →
        w'.writer = w.writer ∧ w'.metadata = w.metadata ∨
          ∃ block : Block, w'.writer = w.writer ++ block.frame ∧
            w'.metadata = w.metadata ++ [block.metadata (streamEnd blocks)]) ∧
      ∀ w', w.current.Readable schema w.rawWritten →
        JsonlBlockWriter.flushBlock schema w = .ok () w' →
        ∃ stream report, w.finish schema = .ok (output ++ stream) ∧
          inspectJsonlStream stream = .ok report ∧ report.footerIndex = some w'.metadata ∧
          report.blocks = w'.metadata := by
  simp only [JsonlBlockWriter.new, bind_ok, pure_ok] at hnew
  obtain ⟨_, hoptions, rfl⟩ := hnew
  obtain ⟨hmaxRows, hmaxBytes, -⟩ := BlockOptions.validate_ok.1 hoptions
  have hstart : Session schema options (output ++ writeStreamHeader) .empty []
      (JsonlBlockWriter.newWithState (output ++ writeStreamHeader) 0 0
        (UInt64.ofNat streamHeaderLen)) :=
    ⟨JsonlBlockWriter.wrote_start _ rfl rfl rfl, List.forall_mem_nil _, List.forall_mem_nil _,
      Nat.two_pow_pos 64⟩
  obtain ⟨cut, blocks, hsession, hspec⟩ := h.session hstart (Cut.bounded_empty hmaxRows hmaxBytes)
  have hmetadata : w.metadata = metadataFrom streamHeaderLen blocks := hsession.wrote.metadata_eq
  refine ⟨cut, blocks, ?_, hmetadata, ?_, hsession.wrote.encoded, hsession.wrote.current_eq, hspec,
    ?_, fun w' hread hflush => hsession.finish hread hflush⟩
  · rw [hsession.wrote.writer_eq, List.append_assoc]
  · rw [hmetadata]
    exact indexedFrom_metadata (hsession.wrote.encoded.chain hsession.payload_le) _
  · intro call e w' hwithin hrun
    obtain ⟨cut', blocks', hsession', hblocks⟩ := hsession.call_error hwithin hrun
    have hwriter := hsession'.wrote.writer_eq
    have hmetadata' : w'.metadata = metadataFrom streamHeaderLen blocks' :=
      hsession'.wrote.metadata_eq
    rcases hblocks with rfl | ⟨block, rfl⟩
    · exact Or.inl ⟨hwriter.trans hsession.wrote.writer_eq.symm, hmetadata'.trans hmetadata.symm⟩
    · refine Or.inr ⟨block, ?_, ?_⟩
      · rw [hwriter, hsession.wrote.writer_eq, LogFormat.flat_append, LogFormat.flat_singleton,
          blockLog_bytes, ← List.append_assoc]
      · rw [hmetadata', hmetadata, metadataFrom_append]
        rfl

end

/-! ### Running some calls -/

/-- The open row groups that a call closes, as a list. -/
def Call.flushed (options : BlockOptions) (w : JsonlBlockWriter) : Call → List (ℕ × RowGroupBuffer)
  | .flushBlock => [(w.rawWritten, w.current)]
  | .writeJsonlLine line =>
      match acceptLine options.maxUncompressedBytesPerBlock line with
      | .ok (some row) =>
          if w.current.wouldExceed row options then
            (w.rawWritten, w.current) ::
              if (RowGroupBuffer.empty.pushLine row).reachedLimit options then
                [(w.rawWritten + w.current.rawBytes, RowGroupBuffer.empty.pushLine row)]
              else []
          else if (w.current.pushLine row).reachedLimit options then
            [(w.rawWritten, w.current.pushLine row)]
          else []
      | _ => []

theorem mem_flushed {options : BlockOptions} {w : JsonlBlockWriter} {call : Call} {written : ℕ}
    {buffer : RowGroupBuffer} (h : Flushes options w call written buffer) :
    (written, buffer) ∈ call.flushed options w := by
  cases h with
  | flushBlock => exact List.mem_singleton_self _
  | before exceeds accept =>
      rw [Call.flushed, accept]
      simp only [if_pos exceeds, List.mem_cons_self]
  | alone exceeds accept reached =>
      rw [Call.flushed, accept]
      simp only [if_pos exceeds, if_pos reached]
      exact List.mem_cons_of_mem _ (List.mem_singleton_self _)
  | after fits accept reached =>
      rw [Call.flushed, accept]
      simp only [if_neg fits, if_pos reached, List.mem_singleton]

section

variable [SerdeJson] (schema : Schema)

instance (written : ℕ) (buffer : RowGroupBuffer) : Decidable (buffer.Readable schema written) :=
  decidableForallOk _ _

variable [Crc32Fast] (options : BlockOptions)

/-- What a call leaves: the writer, and whether no call has failed. -/
def Call.next (s : JsonlBlockWriter × Bool) (call : Call) : JsonlBlockWriter × Bool :=
  match call.run schema options s.1 with
  | .ok _ w' => (w', s.2)
  | .error _ w' => (w', false)

/-- All row groups that some calls close are such that the readers take their blocks. -/
def callsWithin (w : JsonlBlockWriter) : List Call → Bool
  | [] => true
  | call :: calls =>
      (call.flushed options w).all (fun part => part.2.Readable schema part.1) &&
        callsWithin (call.next schema options (w, true)).1 calls

variable {schema options}

theorem Call.next_ok {w w' : JsonlBlockWriter} {call : Call} {allOk : Bool}
    (h : call.run schema options w = .ok () w') :
    call.next schema options (w, allOk) = (w', allOk) := by
  rw [Call.next, h]

theorem Call.next_error {w w' : JsonlBlockWriter} {call : Call} {allOk : Bool} {e : CompactError}
    (h : call.run schema options w = .error e w') :
    call.next schema options (w, allOk) = (w', false) := by
  rw [Call.next, h]

theorem Call.run_next {w : JsonlBlockWriter} {call : Call}
    (h : (call.next schema options (w, true)).2 = true) :
    call.run schema options w = .ok () (call.next schema options (w, true)).1 := by
  cases hrun : call.run schema options w with
  | ok u w' => rw [next_ok hrun]
  | error e w' =>
      rw [next_error hrun] at h
      cases h

/-- **Calls are run** one after another. -/
theorem Run.foldl {start w : JsonlBlockWriter} {done calls : List Call} {allOk : Bool}
    (h : Run schema options start done allOk w) (hwithin : callsWithin schema options w calls) :
    Run schema options start (done ++ calls) (calls.foldl (Call.next schema options) (w, allOk)).2
      (calls.foldl (Call.next schema options) (w, allOk)).1 := by
  induction calls generalizing done w allOk with
  | nil => rwa [List.append_nil]
  | cons call calls ih =>
      simp only [callsWithin, Bool.and_eq_true, List.all_eq_true, decide_eq_true_eq] at hwithin
      obtain ⟨hcall, hrest⟩ := hwithin
      have hflushes : call.Within schema options w := fun written buffer hflushes =>
        hcall (written, buffer) (mem_flushed hflushes)
      rw [List.append_cons, List.foldl_cons]
      cases hrun : call.run schema options w with
      | ok u w' =>
          rw [Call.next_ok hrun] at hrest ⊢
          exact ih (h.ok hflushes hrun) hrest
      | error e w' =>
          rw [Call.next_error hrun] at hrest ⊢
          exact ih (h.error hflushes hrun) hrest

end

open scoped CompactCore.Reference

/-- Calls of a caller whose blocks are full with two rows.  One of the lines is too long. -/
def someCalls : List Call :=
  [.writeJsonlLine Reference.idLine, .writeJsonlLine Reference.idLine,
    .writeJsonlLine (String.ofList (List.replicate 65 'x')), .writeJsonlLine Reference.idLine,
    .flushBlock, .writeJsonlLine Reference.idLine]

/-- A writer behind a byte of its caller. -/
def someStart : JsonlBlockWriter :=
  .newWithState ([0] ++ writeStreamHeader) 0 0 (UInt64.ofNat streamHeaderLen)

/-- What the calls lead to. -/
def someWriter : JsonlBlockWriter × Bool :=
  someCalls.foldl (Call.next (Reference.idSchema .deltaVarintU64) ⟨2, 64⟩) (someStart, true)

set_option maxRecDepth 8192 in
/-- A block that is full, a call that fails, a block that a call flushes, and an open row group: the
stream that is sealed then is accepted. -/
theorem output_some_calls : ∃ w' stream report,
    Run (Reference.idSchema .deltaVarintU64) ⟨2, 64⟩ someStart someCalls false someWriter.1 ∧
      someWriter.1.metadata.length = 2 ∧ someWriter.1.current.rowCount = 1 ∧
      JsonlBlockWriter.flushBlock (Reference.idSchema .deltaVarintU64) someWriter.1 = .ok () w' ∧
      someWriter.1.finish (Reference.idSchema .deltaVarintU64) = .ok ([0] ++ stream) ∧
      inspectJsonlStream stream = .ok report ∧ report.footerIndex = some w'.metadata := by
  have hnew : JsonlBlockWriter.new [0] ⟨2, 64⟩ = .ok someStart := rfl
  have hrun : Run (Reference.idSchema .deltaVarintU64) ⟨2, 64⟩ someStart someCalls someWriter.2
      someWriter.1 := Run.foldl .start (by decide +kernel)
  obtain ⟨hfailed, hblocks, hopen, hread, hflushed⟩ : someWriter.2 = false ∧
      someWriter.1.metadata.length = 2 ∧ someWriter.1.current.rowCount = 1 ∧
      someWriter.1.current.Readable (Reference.idSchema .deltaVarintU64) someWriter.1.rawWritten ∧
      (Call.flushBlock.next (Reference.idSchema .deltaVarintU64) ⟨2, 64⟩
        (someWriter.1, true)).2 := by
    decide +kernel
  rw [hfailed] at hrun
  have hflush := Call.run_next hflushed
  obtain ⟨cut, blocks, -, -, -, -, -, -, -, hfinish⟩ := Run.output hnew hrun
  obtain ⟨stream, report, hstream, hinspect, hfooter, -⟩ := hfinish _ hread hflush
  exact ⟨_, stream, report, hrun, hblocks, hopen, hflush, hstream, hinspect, hfooter⟩

/-! ### A block that is too large -/

/-- A block of more bytes than the readers take makes no stream. -/
theorem not_stream_of_payload {data rest : List UInt8} {block : Block} (hfit : Fits data)
    (hdata : data = writeStreamHeader ++ (block.frame ++ rest))
    (hlarge : maxEncodedBlockBytes < block.payload.length) {blocks : List Block} {sealed : Bool} :
    ¬Stream data blocks sealed := by
  intro h
  have hat : At data streamHeaderLen block.frame := by
    rw [hdata, ← List.append_assoc]
    exact at_mid writeStreamHeader _ _
  obtain ⟨hmagic, hlen, -, hpayload⟩ := Block.at_frame.1 hat
  obtain ⟨hmagic, -⟩ := at_append.1 hmagic
  have hle := hpayload.le
  have hword : data.length < 2 ^ 64 := hfit
  cases blocks with
  | nil =>
      -- there is no footer where the frame is, and not the end either
      cases sealed with
      | false =>
          have hlength := h.length_eq
          have hframe := hat.le
          have hpos := List.length_pos_of_ne_nil block.frame_ne
          rw [hlength] at hframe
          exact absurd hframe (Nat.not_le.2 (Nat.lt_add_of_pos_right hpos))
      | true =>
          have hfooter : At data streamHeaderLen (indexFooter []) := by
            rw [h.data_eq]
            exact at_mid writeStreamHeader (indexFooter []) []
          obtain ⟨hindex, -⟩ := at_append.1 hfooter
          exact absurd (hmagic.eq_of_length hindex rfl) (by decide)
  | cons block' blocks =>
      obtain ⟨⟨hmax, -⟩, -⟩ := h.chain
      have hat' : At data streamHeaderLen block'.frame := by
        rw [h.data_eq, LogFormat.flat_cons, List.append_assoc, ← List.append_assoc]
        exact at_mid writeStreamHeader _ _
      obtain ⟨-, hlen', -, -⟩ := Block.at_frame.1 hat'
      have heq := congrArg UInt64.toNat (le64_unique hlen hlen')
      have hbound : maxEncodedBlockBytes < 2 ^ 64 := by decide
      rw [toNat_ofNat (by omega), toNat_ofNat (by omega)] at heq
      omega

/-- A writer that has taken in equal rows, and written none of them. -/
def repeatedWriter (n : ℕ) : JsonlBlockWriter :=
  { JsonlBlockWriter.newWithState writeStreamHeader 0 0 (UInt64.ofNat streamHeaderLen) with
    current := .ofRows (List.replicate n (Reference.idLine ++ "\n")) }

theorem sum_repeated (n : ℕ) :
    ((List.replicate n (Reference.idLine ++ "\n")).map String.utf8ByteSize).sum = 9 * n := by
  rw [← utf8ByteSize_join, ← length_asBytes]
  exact Reference.length_asBytes_repeated n

theorem pushLine_repeated (n : ℕ) :
    (repeatedWriter n).pushLine (Reference.idLine ++ "\n") = repeatedWriter (n + 1) := by
  rw [JsonlBlockWriter.pushLine, repeatedWriter, repeatedWriter, RowGroupBuffer.pushLine_ofRows,
    List.replicate_succ']

theorem acceptLine_idLine {maxRowLen : ℕ} (h : 9 ≤ maxRowLen) :
    acceptLine maxRowLen Reference.idLine = .ok (some (Reference.idLine ++ "\n")) := by
  have hblank : isBlank Reference.idLine = false := by decide
  have hnormal : normalizeJsonlLine Reference.idLine = .ok (Reference.idLine ++ "\n") := rfl
  have hsize : (Reference.idLine ++ "\n").utf8ByteSize = 9 := rfl
  simp only [acceptLine, hblank, hnormal, Bool.false_eq_true, if_false, bind_ok, Except.ok.injEq,
    failIf_ok, pure_ok]
  exact ⟨_, rfl, (), Nat.not_lt.2 (hsize.trans_le h), rfl⟩

/-- Rows below the limits of the options are taken in. -/
theorem run_repeated {options : BlockOptions} {n : ℕ} (hrows : n < options.maxRowsPerBlock)
    (hbytes : 9 * n + 9 ≤ options.maxUncompressedBytesPerBlock) :
    Run (Reference.idSchema .deltaVarintU64) options (repeatedWriter 0)
      (List.replicate n (.writeJsonlLine Reference.idLine)) true (repeatedWriter n) := by
  induction n with
  | zero => exact .start
  | succ n ih =>
      have haccept := @acceptLine_idLine options.maxUncompressedBytesPerBlock (by omega)
      have hcount (k : ℕ) : (repeatedWriter k).current.rowCount = k := List.length_replicate
      have hraw (k : ℕ) : (repeatedWriter k).current.rawBytes = 9 * k := sum_repeated k
      have hsize : (Reference.idLine ++ "\n").utf8ByteSize = 9 := rfl
      have hreached : (repeatedWriter (n + 1)).current.reachedLimit options = false := by
        rw [RowGroupBuffer.reachedLimit, Bool.or_eq_false_iff, decide_eq_false_iff_not,
          decide_eq_false_iff_not, hcount, hraw]
        omega
      have hexceeds : (repeatedWriter n).current.wouldExceed (Reference.idLine ++ "\n") options =
          false := by
        rw [RowGroupBuffer.wouldExceed]
        split
        · rfl
        · rw [Bool.or_eq_false_iff, decide_eq_false_iff_not, decide_eq_false_iff_not, hcount, hraw,
            hsize]
          omega
      have hpushed (row : String) (hrow : acceptLine options.maxUncompressedBytesPerBlock
          Reference.idLine = .ok (some row)) : row = Reference.idLine ++ "\n" := by
        rw [haccept] at hrow
        cases hrow
        rfl
      rw [List.replicate_succ']
      refine .ok (ih (by omega) (by omega)) ?_ ?_
      · intro written buffer hflushes
        cases hflushes with
        | before exceeds accept =>
            rw [hpushed _ accept, hexceeds] at exceeds
            cases exceeds
        | alone exceeds accept =>
            rw [hpushed _ accept, hexceeds] at exceeds
            cases exceeds
        | after fits accept reached =>
            have hcurrent : (repeatedWriter n).current.pushLine (Reference.idLine ++ "\n") =
                (repeatedWriter (n + 1)).current :=
              congrArg JsonlBlockWriter.current (pushLine_repeated n)
            rw [hpushed _ accept, hcurrent, hreached] at reached
            cases reached
      · simp only [Call.run, JsonlBlockWriter.writeJsonlLine, addLine, Method.bind_ok,
          Method.lift_ok]
        refine ⟨_, _, ⟨haccept, rfl⟩, addRow_ok.2 ⟨repeatedWriter n, ?_, ?_⟩⟩
        · rw [flushIf_ok, hexceeds]
          rfl
        · rw [pushLine_repeated, flushIf_ok, hreached]
          rfl

theorem room_repeated {n : ℕ} {group : JsonlRowGroup} (hlt : n < 2 ^ 60)
    (hcount : group.rowCount = n) (hraw : group.rawBytes = 9 * n)
    (hle : group.payload.length ≤ 10 * n + 29) :
    (repeatedWriter n).Room group where
  blocks_lt := by
    show 0 < maxStreamBlocks
    decide
  rows_lt := by
    show 0 + group.rowCount < _
    omega
  raw_lt := by omega
  bytes_lt := by
    show 10 + (18 + (44 + group.payload.length)) < _
    omega

/-- A writer that holds too many equal rows seals a stream that is not accepted. -/
theorem finish_repeated {n : ℕ} (hlt : n < 2 ^ 60) (hlarge : maxEncodedBlockBytes ≤ n) :
    ∃ stream, (repeatedWriter n).finish (Reference.idSchema .deltaVarintU64) = .ok stream ∧
      ∀ report, inspectJsonlStream stream ≠ .ok report := by
  obtain ⟨group, hgroup, hcount, hraw, hge, hle⟩ := Io.exists_encodeJsonlRowGroup_repeated hlt
  have hdata : (repeatedWriter n).current.data = Reference.repeated n := rfl
  have hfull : ¬(repeatedWriter n).current.isEmpty := by
    have hcount : (repeatedWriter n).current.rowCount = n := List.length_replicate
    have hpos : 0 < maxEncodedBlockBytes := by decide
    rw [RowGroupBuffer.isEmpty, hcount, beq_iff_eq]
    omega
  rw [← hdata] at hgroup
  obtain ⟨w', hflush⟩ :=
    JsonlBlockWriter.exists_flushBlock hgroup (room_repeated hlt hcount hraw hle)
  obtain ⟨group', block, hgroup', -, -, -, -, -, hpayload, hwriter, -, -, -, -, hmetadata⟩ :=
    JsonlBlockWriter.flushBlock_ok hfull hflush
  obtain rfl : group = group' := by
    rw [hgroup] at hgroup'
    cases hgroup'
    rfl
  replace hwriter : w'.writer = writeStreamHeader ++ block.frame := hwriter
  replace hmetadata : w'.metadata.length = 1 := congrArg List.length hmetadata
  refine ⟨w'.writer ++ indexFooter w'.metadata, ?_, fun report hreport => ?_⟩
  · simp only [JsonlBlockWriter.finish, bind_ok, Method.exec_ok, pure_ok, writeIndexFooter_ok]
    exact ⟨w', ⟨(), hflush⟩, _, ⟨by rw [hmetadata]; decide, rfl⟩, rfl⟩
  · have hfit : Fits (w'.writer ++ indexFooter w'.metadata) := by
      have hframe : block.frame.length = 18 + (44 + group.payload.length) := by
        rw [block.length_frame, Block.length_payload, hpayload]
        rfl
      rw [Fits, List.length_append, hwriter, List.length_append, hframe, length_indexFooter,
        hmetadata, length_writeStreamHeader, streamHeaderLen, indexEntryLen, wordSize]
      omega
    obtain ⟨blocks, sealed, hstream, -⟩ := (inspectJsonlStream_ok hfit).1 hreport
    rw [hwriter, List.append_assoc] at hfit hstream
    refine not_stream_of_payload hfit rfl ?_ hstream
    rw [Block.length_payload, hpayload]
    omega

/-- **A stream that is sealed and not accepted**: one block with a row for every byte that a payload
may have. -/
theorem finish_above_limit : ∃ options start w stream,
    JsonlBlockWriter.new [] options = .ok start ∧
      Run (Reference.idSchema .deltaVarintU64) options start
        (List.replicate maxEncodedBlockBytes (.writeJsonlLine Reference.idLine)) true w ∧
      w.finish (Reference.idSchema .deltaVarintU64) = .ok stream ∧
      ∀ report, inspectJsonlStream stream ≠ .ok report := by
  have hlt : maxEncodedBlockBytes < 2 ^ 60 := by decide
  generalize hn : maxEncodedBlockBytes = n at hlt
  obtain ⟨stream, hfinish, hinspect⟩ := finish_repeated hlt hn.le
  refine ⟨⟨n + 1, 9 * n + 9⟩, repeatedWriter 0, repeatedWriter n, stream, ?_,
    run_repeated (Nat.lt_succ_self n) (le_refl _), hfinish, hinspect⟩
  simp only [JsonlBlockWriter.new, bind_ok, BlockOptions.validate_ok, pure_ok]
  exact ⟨_, ⟨Nat.succ_ne_zero _, Nat.succ_ne_zero _, rfl⟩, rfl⟩

end CompactCore.Streaming
