/-
**Rolling append segments.**

An input is written to a sequence of append logs.  Before each line that is not blank, the open log
is finished if its blocks or its bytes have reached the limit of a segment.  The rows that were
buffered then become one more block of that log.  Which row group a row comes to, and which segment
a row group, is a function of the rows alone: `CompactCore.Streaming.rollRows`.

Main definitions:

* `CompactCore.Streaming.RollingOptions`, `CompactCore.Streaming.rollJsonlAppendSegments` — rolling;
* `CompactCore.Streaming.Rolled`, `CompactCore.Streaming.rollRows` — the row groups of the segments;
* `CompactCore.Streaming.recoveredRows` — what the recovered blocks of a segment decode to;
* `CompactCore.Streaming.Overfills` — a row that makes a segment too long.

Main results:

* `CompactCore.Streaming.rollJsonlAppendSegments_ok` — **the segments are the logs of the row groups
  of `rollRows`**;
* `CompactCore.Streaming.rollJsonlAppendSegments_recovered` — when the rows come back;
* `CompactCore.Streaming.rollJsonlAppendSegments_blocks` — when segments keep their block limit.
-/

import CompactCore.Io.RoundTrip
import CompactCore.Streaming.Recovery
import CompactCore.Streaming.RoundTrip

set_option relaxedAutoImplicit false
set_option autoImplicit false

namespace CompactCore.Streaming

open Wire CompactError Io

/-! ### Options -/

/-- Limits for one rolling append segment. -/
structure RollingOptions where
  maxSegmentBytes : ℕ
  maxBlocksPerSegment : ℕ
  deriving DecidableEq, Repr

def RollingOptions.validate (options : RollingOptions) : Result RollingOptions := do
  failIf (options.maxSegmentBytes = 0)
    (invalidInput "max segment bytes must be greater than zero")
  failIf (options.maxBlocksPerSegment = 0)
    (invalidInput "max blocks per segment must be greater than zero")
  return options

/-- `RollingOptions::default`. -/
def RollingOptions.default : RollingOptions := ⟨64 * 1024 * 1024, 1024⟩

theorem RollingOptions.validate_ok {options options' : RollingOptions} :
    options.validate = .ok options' ↔ options.maxSegmentBytes ≠ 0 ∧
      options.maxBlocksPerSegment ≠ 0 ∧ options = options' := by
  simp only [RollingOptions.validate, bind_ok, failIf_ok, pure_ok, exists_const]

/-- The default options pass their own check. -/
example : RollingOptions.default.validate = .ok RollingOptions.default := rfl

/-! ### Rolling -/

/-- The segments that are finished, and the writer of the open one. -/
structure RollState where
  segments : List (List UInt8)
  current : Option JsonlBlockWriter
  deriving DecidableEq, Repr

namespace RollState

def start : RollState := ⟨[], none⟩

/-- The open segment has as many blocks or bytes as a segment may have. -/
def full (rolling : RollingOptions) (w : JsonlBlockWriter) : Bool :=
  rolling.maxBlocksPerSegment ≤ w.metadata.length ||
    rolling.maxSegmentBytes ≤ w.bytesWritten.toNat

variable [Crc32Fast] [SerdeJson] (schema : Schema) (options : BlockOptions)
  (rolling : RollingOptions)

/-- `segments.push(current.take().finish()?)`, if the open segment is full. -/
def finishFull : EStateM CompactError RollState Unit := do
  let s ← get
  match s.current with
  | none => pure ()
  | some w =>
      if full rolling w then do
        let segment ← w.finishWithoutFooter schema
        modify fun s => ⟨s.segments ++ [segment], none⟩
      else pure ()

/-- The writer of the open segment, or of a new one. -/
def openWriter (s : RollState) : Result JsonlBlockWriter :=
  match s.current with
  | some w => .ok w
  | none => JsonlBlockWriter.new [] options

/-- Write a line to the open segment. -/
def writeLine (line : String) : EStateM CompactError RollState Unit := do
  let s ← get
  let w ← s.openWriter options
  let w ← Method.exec (JsonlBlockWriter.writeJsonlLine schema options line) w
  modify fun s => { s with current := some w }

/-- The body of the loop over the lines. -/
def rollLine (line : String) : EStateM CompactError RollState Unit :=
  if isBlank line = true then pure ()
  else do
    finishFull schema rolling
    writeLine schema options line

/-- The segments, with the open one finished. -/
def finish (s : RollState) : Result (List (List UInt8)) :=
  match s.current with
  | none => .ok s.segments
  | some w => do
      let segment ← w.finishWithoutFooter schema
      return s.segments ++ [segment]

end RollState

/-- Encode JSONL into append segments using block-boundary rolling. -/
def rollJsonlAppendSegments [Crc32Fast] [SerdeJson] (input : BufRead) (schema : Schema)
    (blockOptions : BlockOptions) (rollingOptions : RollingOptions) :
    Result (List (List UInt8)) := do
  let blockOptions ← blockOptions.validate
  let rollingOptions ← rollingOptions.validate
  let s ← Method.exec (forLines blockOptions.maxUncompressedBytesPerBlock
    (RollState.rollLine schema blockOptions rollingOptions) input) RollState.start
  s.finish schema

/-! ### Where rows are cut into segments -/

/-- The row groups of the finished segments, and the cut of the open one. -/
structure Rolled where
  segments : List (List (List String))
  current : Option Cut
  deriving DecidableEq, Repr

namespace Rolled

def start : Rolled := ⟨[], none⟩

/-- `size` gives the bytes of the frame of a row group. -/
def full (size : List String → ℕ) (rolling : RollingOptions) (cut : Cut) : Bool :=
  rolling.maxBlocksPerSegment ≤ cut.groups.length ||
    rolling.maxSegmentBytes ≤ streamHeaderLen + (cut.groups.map size).sum

/-- Finish the open segment if it is full. -/
def finishFull (size : List String → ℕ) (rolling : RollingOptions) (r : Rolled) : Rolled :=
  match r.current with
  | none => r
  | some cut => if full size rolling cut then ⟨r.segments ++ [cut.finish], none⟩ else r

/-- The cut that a row comes to. -/
def openCut (r : Rolled) : Cut := r.current.getD Cut.empty

def add (size : List String → ℕ) (options : BlockOptions) (rolling : RollingOptions) (r : Rolled)
    (row : String) : Rolled :=
  let r := r.finishFull size rolling
  ⟨r.segments, some (r.openCut.add options row)⟩

def finish (r : Rolled) : List (List (List String)) :=
  match r.current with
  | none => r.segments
  | some cut => r.segments ++ [cut.finish]

/-- All rows, in order. -/
def rows (r : Rolled) : List String := r.segments.flatten.flatten ++ r.openCut.rows

theorem rows_finishFull (size : List String → ℕ) (rolling : RollingOptions) (r : Rolled) :
    (r.finishFull size rolling).rows = r.rows := by
  obtain ⟨segments, current⟩ := r
  cases current with
  | none => rfl
  | some cut =>
      show (if full size rolling cut then _ else _ : Rolled).rows = _
      split
      · have hfinish := cut.flatten_finish
        rw [rows, rows, List.flatten_append, List.flatten_append, List.flatten_singleton, hfinish]
        exact List.append_nil _
      · rfl

theorem rows_add (size : List String → ℕ) (options : BlockOptions) (rolling : RollingOptions)
    (r : Rolled) (row : String) : (r.add size options rolling row).rows = r.rows ++ [row] := by
  rw [← r.rows_finishFull size rolling, rows, rows, List.append_assoc, ← Cut.rows_add]
  rfl

theorem flatten_finish (r : Rolled) : r.finish.flatten.flatten = r.rows := by
  obtain ⟨segments, current⟩ := r
  cases current with
  | none => exact (List.append_nil _).symm
  | some cut => simp [finish, rows, openCut, Cut.flatten_finish]

end Rolled

/-- The row groups of the segments of some rows. -/
def rollRows (size : List String → ℕ) (options : BlockOptions) (rolling : RollingOptions)
    (rows : List String) : List (List (List String)) :=
  (rows.foldl (Rolled.add size options rolling) Rolled.start).finish

/-- **Rolling loses, repeats and moves no row.** -/
theorem flatten_rollRows (size : List String → ℕ) (options : BlockOptions)
    (rolling : RollingOptions) (rows : List String) :
    (rollRows size options rolling rows).flatten.flatten = rows := by
  have hfold : ∀ (rows : List String) (r : Rolled),
      (rows.foldl (Rolled.add size options rolling) r).rows = r.rows ++ rows := by
    intro rows
    induction rows with
    | nil => exact fun r => (List.append_nil _).symm
    | cons row rows ih =>
        intro r
        rw [List.foldl_cons, ih, Rolled.rows_add, List.append_assoc, List.singleton_append]
  rw [rollRows, Rolled.flatten_finish, hfold]
  rfl

/-! ### The block limit -/

namespace Cut

theorem length_finish (cut : Cut) :
    cut.finish.length = cut.groups.length + if cut.current = [] then 0 else 1 := by
  rw [finish]
  split
  · rfl
  · simp [flush]

/-- Rows that are open are in one more row group, closed or not. -/
theorem length_finish_flushIf (test : RowGroupBuffer → Bool) {cut : Cut} (h : cut.current ≠ []) :
    (cut.flushIf test).finish.length = cut.groups.length + 1 := by
  rw [length_finish, flushIf]
  split
  · simp [flush]
  · rfl

/-- A row opens a row group, or goes to the open one: it is in the last row group in any case. -/
theorem length_finish_add (options : BlockOptions) (cut : Cut) (row : String) :
    (cut.add options row).finish.length = cut.groups.length + 1 +
      if (RowGroupBuffer.ofRows cut.current).wouldExceed row options then 1 else 0 := by
  rw [add, length_finish_flushIf _ current_push_ne_nil, push, flushIf]
  split
  · simp [flush]
  · rfl

end Cut

namespace Rolled

/-- The segments keep the block limit. -/
def Within (rolling : RollingOptions) (r : Rolled) : Prop :=
  ∀ groups ∈ r.finish, groups.length ≤ rolling.maxBlocksPerSegment

/-- The row does not fit the open row group, which is the last one that its segment has room for. -/
def Overfills (size : List String → ℕ) (options : BlockOptions) (rolling : RollingOptions)
    (r : Rolled) (row : String) : Prop :=
  (r.finishFull size rolling).openCut.groups.length + 1 = rolling.maxBlocksPerSegment ∧
    (RowGroupBuffer.ofRows (r.finishFull size rolling).openCut.current).wouldExceed row options =
      true

instance (size : List String → ℕ) (options : BlockOptions) (rolling : RollingOptions) (r : Rolled)
    (row : String) : Decidable (r.Overfills size options rolling row) :=
  inferInstanceAs (Decidable (_ ∧ _))

variable {size : List String → ℕ} {options : BlockOptions} {rolling : RollingOptions}

theorem finish_finishFull (r : Rolled) : (r.finishFull size rolling).finish = r.finish := by
  obtain ⟨segments, current⟩ := r
  cases current with
  | none => rfl
  | some cut =>
      show (if full size rolling cut then _ else _ : Rolled).finish = _
      split <;> rfl

/-- Behind the check, the open segment has room for a block. -/
theorem room_finishFull (hpos : rolling.maxBlocksPerSegment ≠ 0) (r : Rolled) :
    (r.finishFull size rolling).openCut.groups.length < rolling.maxBlocksPerSegment := by
  obtain ⟨segments, current⟩ := r
  cases current with
  | none => exact Nat.pos_of_ne_zero hpos
  | some cut =>
      show (if full size rolling cut then _ else _ : Rolled).openCut.groups.length < _
      split
      · exact Nat.pos_of_ne_zero hpos
      · rename_i hroom
        rw [full, Bool.or_eq_true, not_or, decide_eq_true_iff] at hroom
        exact Nat.lt_of_not_le hroom.1

/-- **When a row breaks the block limit.** -/
theorem within_add (hpos : rolling.maxBlocksPerSegment ≠ 0) (r : Rolled) (row : String) :
    (r.add size options rolling row).Within rolling ↔
      r.Within rolling ∧ ¬r.Overfills size options rolling row := by
  have hroom : (r.finishFull size rolling).openCut.groups.length < rolling.maxBlocksPerSegment :=
    r.room_finishFull hpos
  have hfinish : (r.finishFull size rolling).finish = r.finish := r.finish_finishFull
  rw [Within, Within, ← hfinish, Overfills, add]
  generalize r.finishFull size rolling = r' at hroom ⊢
  have hadd := Cut.length_finish_add options r'.openCut row
  -- the rows that were open before keep the limit, since there was room for their block
  have hopen : (∀ groups ∈ r'.finish, groups.length ≤ rolling.maxBlocksPerSegment) ↔
      ∀ groups ∈ r'.segments, groups.length ≤ rolling.maxBlocksPerSegment := by
    obtain ⟨segments, current⟩ := r'
    cases current with
    | none => exact Iff.rfl
    | some cut =>
        have hlen := cut.length_finish
        have hcut : cut.groups.length < rolling.maxBlocksPerSegment := hroom
        have hle : cut.finish.length ≤ rolling.maxBlocksPerSegment := by
          split at hlen <;> omega
        simp only [finish, List.mem_append, List.mem_singleton, or_imp, forall_and, forall_eq, hle,
          and_true]
  rw [hopen]
  simp only [finish, List.mem_append, List.mem_singleton, or_imp, forall_and, forall_eq]
  refine and_congr_right fun _ => ?_
  by_cases hexceeds :
    (RowGroupBuffer.ofRows r'.openCut.current).wouldExceed row options = true
  · rw [if_pos hexceeds] at hadd
    simp only [hexceeds, and_true]
    omega
  · rw [if_neg hexceeds] at hadd
    simp only [hexceeds, Bool.false_eq_true, and_false, not_false_eq_true, iff_true]
    omega

end Rolled

/-- **When the segments of some rows keep the block limit**: no row overfills its segment. -/
theorem rollRows_within {size : List String → ℕ} {options : BlockOptions} {rolling : RollingOptions}
    (hpos : rolling.maxBlocksPerSegment ≠ 0) (rows : List String) :
    (∀ groups ∈ rollRows size options rolling rows, groups.length ≤ rolling.maxBlocksPerSegment) ↔
      ∀ done row rest, rows = done ++ row :: rest →
        ¬(done.foldl (Rolled.add size options rolling) Rolled.start).Overfills size options rolling
          row := by
  induction rows using List.reverseRecOn with
  | nil => simp [rollRows, Rolled.start, Rolled.finish]
  | append_singleton rows row ih =>
      have hstep := @Rolled.within_add size options rolling hpos
        (rows.foldl (Rolled.add size options rolling) Rolled.start) row
      rw [Rolled.Within, Rolled.Within] at hstep
      rw [rollRows] at ih ⊢
      rw [List.foldl_append, List.foldl_cons, List.foldl_nil, hstep, ih]
      constructor
      · rintro ⟨hinit, hlast⟩ done row' rest heq
        rcases List.eq_nil_or_concat rest with rfl | ⟨rest, last, rfl⟩
        · obtain ⟨rfl, hrow⟩ := List.append_inj' heq rfl
          cases hrow
          exact hlast
        · rw [List.concat_eq_append, ← List.cons_append, ← List.append_assoc] at heq
          exact hinit done row' rest (List.append_inj' heq rfl).1
      · intro hall
        refine ⟨fun done row' rest heq => hall done row' (rest ++ [row]) ?_, hall rows row [] rfl⟩
        rw [heq, List.append_assoc, List.cons_append]

/-- The bytes of the frame of a row group. -/
def groupFrameLen [SerdeJson] (schema : Schema) (rows : List String) : ℕ :=
  match encodeJsonlRowGroup (String.join rows) schema with
  | .ok group => frameHeaderLen + (blockHeaderLen + group.payload.length)
  | .error _ => 0

/-! ### The segments are the logs of the row groups -/

/-- A segment is the log of some blocks, which row groups are encoded to. -/
structure IsSegment [Crc32Fast] [SerdeJson] (schema : Schema) (groups : List (List String))
    (segment : List UInt8) (blocks : List Block) : Prop where
  encoded : Encoded schema [] groups blocks
  segment_eq : segment = writeStreamHeader ++ blockLog.flat blocks
  count_le : blocks.length ≤ maxStreamBlocks
  rows_lt : blockRows blocks < 2 ^ 64
  end_lt : streamEnd blocks < 2 ^ 64

section

variable [SerdeJson] {schema : Schema} {old blocks : List Block} {groups : List (List String)}

/-- The frames of the blocks are as long as the row groups make them. -/
theorem Encoded.length_flat [Crc32Fast] (h : Encoded schema old groups blocks) :
    (blockLog.flat blocks).length = (groups.map (groupFrameLen schema)).sum := by
  induction h with
  | nil => rfl
  | @snoc groups blocks rows group block _ hgroup hnext ih =>
      have hframe : groupFrameLen schema rows = block.frame.length := by
        rw [groupFrameLen, hgroup, block.length_frame, Block.length_payload, hnext.columnBlock_eq]
        rfl
      rw [LogFormat.flat_append, LogFormat.flat_singleton, List.length_append, ih, List.map_append,
        List.sum_append, List.map_singleton, List.sum_singleton, hframe, blockLog_bytes]

variable [Crc32Fast] {w : JsonlBlockWriter} {cut : Cut}

/-- A writer asks whether the segment is full, and the rows say it. -/
theorem JsonlBlockWriter.Wrote.full_eq {base : List UInt8} (rolling : RollingOptions)
    (h : w.Wrote schema base [] cut blocks) :
    RollState.full rolling w = Rolled.full (groupFrameLen schema) rolling cut := by
  have hcount : w.metadata.length = cut.groups.length := by
    rw [h.metadata_eq, length_metadataFrom, ← h.encoded.length_eq]
  have hbytes : w.bytesWritten.toNat =
      streamHeaderLen + (cut.groups.map (groupFrameLen schema)).sum := by
    rw [h.offset_eq, ← h.encoded.length_flat]
    rfl
  rw [RollState.full, Rolled.full, hcount, hbytes]

/-- A writer is finished to a segment. -/
theorem JsonlBlockWriter.Wrote.segment {segment : List UInt8}
    (h : w.Wrote schema writeStreamHeader [] cut blocks)
    (hfinish : w.finishWithoutFooter schema = .ok segment) :
    ∃ blocks, IsSegment schema cut.finish segment blocks := by
  simp only [JsonlBlockWriter.finishWithoutFooter, bind_ok, Method.exec_ok, pure_ok] at hfinish
  obtain ⟨w', ⟨_, hflush⟩, rfl⟩ := hfinish
  obtain ⟨blocks', h'⟩ := h.finish hflush
  refine ⟨blocks', h'.encoded, h'.writer_eq, ?_, ?_, ?_⟩
  · rcases h'.bounded with rfl | hle
    · exact Nat.zero_le _
    · exact hle
  · have hrow : w'.rowsWritten.toNat = blockRows blocks' := h'.row_eq
    exact hrow ▸ w'.rowsWritten.toNat_lt
  · have hoffset : w'.bytesWritten.toNat = streamEnd blocks' := h'.offset_eq
    exact hoffset ▸ w'.bytesWritten.toNat_lt

end

section

variable [Crc32Fast] [SerdeJson] {schema : Schema} {options : BlockOptions}
  {rolling : RollingOptions} {s s' : RollState} {r : Rolled}

/-- The state of the loop holds the rows as `Rolled` says. -/
structure RollState.Keeps (schema : Schema) (s : RollState) (r : Rolled) : Prop where
  segments : List.Forall₂ (fun groups segment => ∃ blocks, IsSegment schema groups segment blocks)
    r.segments s.segments
  current : Option.Rel (fun cut w => ∃ blocks, w.Wrote schema writeStreamHeader [] cut blocks)
    r.current s.current

namespace RollState.Keeps

theorem finishFull (h : s.Keeps schema r)
    (hrun : RollState.finishFull schema rolling s = .ok () s') :
    s'.Keeps schema (r.finishFull (groupFrameLen schema) rolling) := by
  obtain ⟨segments, current⟩ := s
  obtain ⟨groups, cut⟩ := r
  obtain ⟨hsegments, hcurrent⟩ := h
  simp only [RollState.finishFull, Method.bind_ok, Method.get_ok] at hrun
  obtain ⟨_, _, ⟨rfl, rfl⟩, hrun⟩ := hrun
  cases hcurrent with
  | none =>
      obtain ⟨-, rfl⟩ := Method.pure_ok.1 hrun
      exact ⟨hsegments, .none⟩
  | @some cut w hwrote =>
      obtain ⟨blocks, hwrote⟩ := hwrote
      have hfull := hwrote.full_eq rolling
      simp only [Rolled.finishFull]
      by_cases hyes : RollState.full rolling w = true
      · simp only [if_pos hyes, Method.bind_ok, Method.lift_ok, Method.modify_ok] at hrun
        obtain ⟨segment, _, ⟨hsegment, rfl⟩, rfl⟩ := hrun
        rw [if_pos (hfull ▸ hyes)]
        exact ⟨List.rel_append hsegments (.cons (hwrote.segment hsegment) .nil), .none⟩
      · simp only [if_neg hyes] at hrun
        obtain ⟨-, rfl⟩ := Method.pure_ok.1 hrun
        rw [if_neg (hfull ▸ hyes)]
        exact ⟨hsegments, .some ⟨blocks, hwrote⟩⟩

/-- The writer of the open segment has written the open cut. -/
theorem openWriter (h : s.Keeps schema r) {w : JsonlBlockWriter}
    (hopen : s.openWriter options = .ok w) :
    ∃ blocks, w.Wrote schema writeStreamHeader [] r.openCut blocks := by
  obtain ⟨segments, current⟩ := s
  obtain ⟨groups, cut⟩ := r
  obtain ⟨-, hcurrent⟩ := h
  cases hcurrent with
  | none =>
      simp only [RollState.openWriter, JsonlBlockWriter.new, bind_ok, pure_ok] at hopen
      obtain ⟨_, -, rfl⟩ := hopen
      exact ⟨[], JsonlBlockWriter.wrote_start _ rfl rfl rfl⟩
  | some hwrote =>
      cases hopen
      exact hwrote

theorem writeLine (h : s.Keeps schema r) {line : String} (hblank : ¬isBlank line = true)
    (hrun : RollState.writeLine schema options line s = .ok () s') :
    ∃ row, acceptLine options.maxUncompressedBytesPerBlock line = .ok (some row) ∧
      s'.Keeps schema ⟨r.segments, some (r.openCut.add options row)⟩ := by
  simp only [RollState.writeLine, Method.bind_ok, Method.get_ok, Method.lift_ok, Method.exec_ok,
    Method.modify_ok] at hrun
  obtain ⟨_, _, ⟨rfl, rfl⟩, w, _, ⟨hopen, rfl⟩, w', _, ⟨⟨_, hwrite⟩, rfl⟩, rfl⟩ := hrun
  obtain ⟨blocks, hwrote⟩ := h.openWriter hopen
  simp only [JsonlBlockWriter.writeJsonlLine, addLine, Method.bind_ok, Method.lift_ok] at hwrite
  obtain ⟨row, _, ⟨hrow, rfl⟩, hadd⟩ := hwrite
  cases row with
  | none =>
      rw [acceptLine, if_neg hblank] at hrow
      simp only [bind_ok, pure_ok, reduceCtorEq, and_false, exists_false] at hrow
  | some row =>
      refine ⟨row, hrow, h.segments, .some ?_⟩
      exact (JsonlBlockWriter.represents schema writeStreamHeader []).addRow ⟨blocks, hwrote⟩ hadd

/-- **One line is rolled as its row is.** -/
theorem rollLine (h : s.Keeps schema r) {line : String}
    (hrun : RollState.rollLine schema options rolling line s = .ok () s') :
    ∃ row, acceptLine options.maxUncompressedBytesPerBlock line = .ok row ∧
      s'.Keeps schema (row.toList.foldl (Rolled.add (groupFrameLen schema) options rolling) r) := by
  rw [RollState.rollLine] at hrun
  by_cases hblank : isBlank line = true
  · rw [if_pos hblank] at hrun
    obtain ⟨-, rfl⟩ := Method.pure_ok.1 hrun
    exact ⟨none, by rw [acceptLine, if_pos hblank], h⟩
  · rw [if_neg hblank, Method.bind_ok] at hrun
    obtain ⟨_, s₁, hfinish, hwrite⟩ := hrun
    obtain ⟨row, hrow, h'⟩ := (h.finishFull hfinish).writeLine hblank hwrite
    exact ⟨some row, hrow, h'⟩

/-- **Lines are rolled as their rows are.** -/
theorem forM_rollLine {lines : List String} (h : s.Keeps schema r)
    (hrun : lines.forM (RollState.rollLine schema options rolling) s = .ok () s') :
    ∃ rows, acceptLines options.maxUncompressedBytesPerBlock lines = .ok rows ∧
      s'.Keeps schema (rows.foldl (Rolled.add (groupFrameLen schema) options rolling) r) := by
  induction lines generalizing s r with
  | nil =>
      rw [Method.forM_nil] at hrun
      exact ⟨[], acceptLines_nil.2 rfl, hrun ▸ h⟩
  | cons line lines ih =>
      obtain ⟨s₁, hline, hlines⟩ := Method.forM_cons.1 hrun
      obtain ⟨row, hrow, h₁⟩ := h.rollLine hline
      obtain ⟨rows, hrows, h'⟩ := ih h₁ hlines
      refine ⟨row.toList ++ rows, acceptLines_cons.2 ⟨row, rows, hrow, hrows, rfl⟩, ?_⟩
      rwa [List.foldl_append]

/-- The last segment is finished. -/
theorem finish (h : s.Keeps schema r) {segments : List (List UInt8)}
    (hrun : s.finish schema = .ok segments) :
    List.Forall₂ (fun groups segment => ∃ blocks, IsSegment schema groups segment blocks)
      r.finish segments := by
  obtain ⟨closed, current⟩ := s
  obtain ⟨groups, cut⟩ := r
  obtain ⟨hsegments, hcurrent⟩ := h
  cases hcurrent with
  | none =>
      cases hrun
      exact hsegments
  | some hwrote =>
      simp only [RollState.finish, bind_ok, pure_ok] at hrun
      obtain ⟨segment, hsegment, rfl⟩ := hrun
      obtain ⟨blocks, hwrote⟩ := hwrote
      exact List.rel_append hsegments (.cons (hwrote.segment hsegment) .nil)

end RollState.Keeps

/-- **The segments are the logs of the row groups of `rollRows`.** -/
theorem rollJsonlAppendSegments_ok {input : BufRead} {segments : List (List UInt8)}
    (h : rollJsonlAppendSegments input schema options rolling = .ok segments) :
    ∃ lines rows, InputLines options.maxUncompressedBytesPerBlock input.bytes lines ∧
      acceptLines options.maxUncompressedBytesPerBlock lines = .ok rows ∧
      options.validate = .ok options ∧ rolling.validate = .ok rolling ∧
      List.Forall₂ (fun groups segment => ∃ blocks, IsSegment schema groups segment blocks)
        (rollRows (groupFrameLen schema) options rolling rows) segments := by
  simp only [rollJsonlAppendSegments, bind_ok, Method.exec_ok] at h
  obtain ⟨_, hoptions, _, hrolling, s, ⟨_, hlines⟩, hfinish⟩ := h
  obtain ⟨-, -, rfl⟩ := BlockOptions.validate_ok.1 hoptions
  obtain ⟨-, -, rfl⟩ := RollingOptions.validate_ok.1 hrolling
  obtain ⟨lines, hinput, hloop⟩ := forLines_ok.1 hlines
  have hstart : RollState.start.Keeps schema Rolled.start := ⟨.nil, .none⟩
  obtain ⟨rows, hrows, hkeeps⟩ := hstart.forM_rollLine hloop
  exact ⟨lines, rows, hinput, hrows, hoptions, hrolling, hkeeps.finish hfinish⟩

end

/-! ### How many blocks a segment has -/

section

variable [Crc32Fast]

/-- A segment is a log of `n` blocks. -/
def HasBlocks (segment : List UInt8) (n : ℕ) : Prop :=
  ∃ blocks : List Block, segment = writeStreamHeader ++ blockLog.flat blocks ∧ blocks.length = n

/-- The same bytes are the frames of the same number of blocks. -/
theorem length_eq_of_flat_eq {blocks blocks' : List Block}
    (h : blockLog.flat blocks = blockLog.flat blocks') (hfit : Fits (blockLog.flat blocks)) :
    blocks.length = blocks'.length := by
  induction blocks generalizing blocks' with
  | nil =>
      cases blocks' with
      | nil => rfl
      | cons block' blocks' =>
          rw [LogFormat.flat_cons] at h
          exact absurd (List.append_eq_nil_iff.1 h.symm).1 block'.frame_ne
  | cons block blocks ih =>
      cases blocks' with
      | nil =>
          rw [LogFormat.flat_cons] at h
          exact absurd (List.append_eq_nil_iff.1 h).1 block.frame_ne
      | cons block' blocks' =>
          rw [LogFormat.flat_cons, LogFormat.flat_cons, blockLog_bytes, blockLog_bytes] at h
          rw [LogFormat.flat_cons, blockLog_bytes] at hfit
          -- both frames stand at the beginning, so their lengths are written at the same place
          have hat : At (block.frame ++ blockLog.flat blocks) 0 block.frame := at_mid [] _ _
          have hat' : At (block.frame ++ blockLog.flat blocks) 0 block'.frame := by
            rw [h]
            exact at_mid [] _ _
          have hlt : (block.frame ++ blockLog.flat blocks).length < 2 ^ 64 := hfit
          have hle := hat.le
          have hle' := hat'.le
          rw [Block.length_frame] at hle hle'
          obtain ⟨-, hlen, -, -⟩ := Block.at_frame.1 hat
          obtain ⟨-, hlen', -, -⟩ := Block.at_frame.1 hat'
          have heq := congrArg UInt64.toNat (le64_unique hlen hlen')
          rw [toNat_ofNat (by omega), toNat_ofNat (by omega)] at heq
          have hframes : block.frame.length = block'.frame.length := by
            rw [Block.length_frame, Block.length_frame, heq]
          have hrest := List.append_inj_right h hframes
          rw [List.length_append] at hlt
          have hfit' : Fits (blockLog.flat blocks) := lt_of_le_of_lt (Nat.le_add_left _ _) hlt
          rw [List.length_cons, List.length_cons, ih hrest hfit']

theorem HasBlocks.unique {segment : List UInt8} {n n' : ℕ} (h : HasBlocks segment n)
    (h' : HasBlocks segment n') (hfit : Fits segment) : n = n' := by
  obtain ⟨blocks, rfl, rfl⟩ := h
  obtain ⟨blocks', heq, rfl⟩ := h'
  refine length_eq_of_flat_eq (List.append_cancel_left heq) (lt_of_le_of_lt ?_ hfit)
  rw [List.length_append]
  exact Nat.le_add_left _ _

variable [SerdeJson] {schema : Schema} {groups : List (List String)} {segment : List UInt8}
  {blocks : List Block}

theorem IsSegment.fits (h : IsSegment schema groups segment blocks) : Fits segment := by
  rw [h.segment_eq, Fits, length_header_append]
  exact h.end_lt

/-- A segment has a block for every row group. -/
theorem IsSegment.hasBlocks (h : IsSegment schema groups segment blocks) :
    HasBlocks segment groups.length := ⟨blocks, h.segment_eq, h.encoded.length_eq⟩

/-- **When segments keep their block limit**: no row is added that does not fit the open row group,
where the segment has room for one row group only. -/
theorem rollJsonlAppendSegments_blocks {input : BufRead} {options : BlockOptions}
    {rolling : RollingOptions} {segments : List (List UInt8)}
    (h : rollJsonlAppendSegments input schema options rolling = .ok segments) :
    ∃ lines rows, InputLines options.maxUncompressedBytesPerBlock input.bytes lines ∧
      acceptLines options.maxUncompressedBytesPerBlock lines = .ok rows ∧
      (∀ segment ∈ segments, ∃ n, HasBlocks segment n) ∧
      ((∀ segment ∈ segments, ∀ n, HasBlocks segment n → n ≤ rolling.maxBlocksPerSegment) ↔
        ∀ done row rest, rows = done ++ row :: rest →
          ¬(done.foldl (Rolled.add (groupFrameLen schema) options rolling) Rolled.start).Overfills
            (groupFrameLen schema) options rolling row) := by
  obtain ⟨lines, rows, hinput, hrows, -, hrolling, hsegments⟩ := rollJsonlAppendSegments_ok h
  obtain ⟨-, hpos, -⟩ := RollingOptions.validate_ok.1 hrolling
  refine ⟨lines, rows, hinput, hrows, ?_, ?_⟩
  · intro segment hmem
    obtain ⟨groups, -, blocks, hsegment⟩ := exists_of_forall₂_mem_right hsegments hmem
    exact ⟨groups.length, hsegment.hasBlocks⟩
  rw [← rollRows_within hpos]
  constructor
  · intro hall groups hmem
    obtain ⟨segment, hsegment, blocks, h'⟩ := exists_of_forall₂_mem_left hsegments hmem
    exact hall segment hsegment _ h'.hasBlocks
  · intro hall segment hmem n hn
    obtain ⟨groups, hgroups, blocks, h'⟩ := exists_of_forall₂_mem_right hsegments hmem
    rw [hn.unique h'.hasBlocks h'.fits]
    exact hall groups hgroups

end

open scoped CompactCore.Reference

/-- Two rows in a segment each. -/
theorem rollJsonlAppendSegments_blocks_two_rows : ∃ segments,
    rollJsonlAppendSegments idInput (Reference.idSchema .deltaVarintU64) ⟨1, 64⟩ ⟨2 ^ 20, 1⟩ =
        .ok segments ∧ segments.length = 2 ∧
      ∀ segment ∈ segments, ∀ n, HasBlocks segment n → n ≤ 1 := by
  obtain ⟨segments, hroll, hlen⟩ := Reference.exists_ok
    (x := rollJsonlAppendSegments idInput (Reference.idSchema .deltaVarintU64) ⟨1, 64⟩ ⟨2 ^ 20, 1⟩)
    (fun segments => segments.length = 2) (by decide +kernel)
  refine ⟨segments, hroll, hlen, ?_⟩
  obtain ⟨lines, rows, hinput, hrows, -, hlimit⟩ := rollJsonlAppendSegments_blocks hroll
  rw [idInput_lines hinput] at hrows
  refine hlimit.2 fun done row rest heq => ?_
  obtain rfl : ["\x7b\"id\":1\x7d\n", "\x7b\"id\":2\x7d\n"] = rows := Except.ok.inj hrows
  -- the first row, or the second behind it
  rcases done with _ | ⟨first, _ | ⟨second, done⟩⟩
  · cases heq
    decide +kernel
  · cases heq
    decide +kernel
  · simp at heq

set_option maxRecDepth 8192 in
/-- **A segment with one block too many**: the second row does not fit the open row group, so the
first one becomes a block, and the second another when the segment is finished. -/
theorem rollJsonlAppendSegments_overfilled : ∃ segments segment r,
    rollJsonlAppendSegments idInput (Reference.idSchema .deltaVarintU64) ⟨100, 16⟩ ⟨2 ^ 20, 1⟩ =
        .ok segments ∧ segment ∈ segments ∧ recoverAppendStream segment = .ok r ∧
      1 < r.blocks.length := by
  obtain ⟨segments, hroll, hany⟩ := Reference.exists_ok
    (x := rollJsonlAppendSegments idInput (Reference.idSchema .deltaVarintU64) ⟨100, 16⟩
      ⟨2 ^ 20, 1⟩)
    (fun segments => (segments.any fun segment =>
      (recoverAppendStream segment).toOption.any fun r => 1 < r.blocks.length) = true)
    (by decide +kernel)
  obtain ⟨segment, hmem, hblocks⟩ := List.any_eq_true.1 hany
  obtain ⟨r, hr, hlen⟩ :=
    Reference.exists_ok (fun r : AppendRecovery => 1 < r.blocks.length) hblocks
  exact ⟨segments, segment, r, hroll, hmem, hr, hlen⟩

end CompactCore.Streaming
