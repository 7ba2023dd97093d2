/-
**The parallel encoder.**

A scheduler cuts the rows of an input into row groups, workers encode them, and a collector writes
the blocks and the footer.  The scheduler closes row groups where the sequential writer closes them,
and the collector writes in block order; so the encoder returns what the sequential encoder returns,
whatever the order of its threads.

Main definitions:

* `CompactCore.Parallel.scheduleJobs`, `CompactCore.Parallel.encodeJob`,
  `CompactCore.Parallel.encodedBlocks` — scheduler, worker and collector;
* `CompactCore.Parallel.encodeJsonlStreamParallel` — the encoder;
* `CompactCore.Parallel.Scheduled` — the jobs of row groups.

Main results:

* `CompactCore.Parallel.scheduleJobs_ok` — the scheduler cuts the rows where the writer does;
* `CompactCore.Parallel.foldlM_encodedBlocks` — what the blocks are in block order;
* `CompactCore.Parallel.encodeJsonlStreamParallel_of_sequential` — **every run returns the stream of
  the sequential encoder**;
* `CompactCore.Parallel.inspectJsonlStream_parallel` — which of its streams can be inspected.
-/

import CompactCore.Io.RoundTrip
import CompactCore.Parallel.Collect
import CompactCore.Reference
import CompactCore.Streaming.Inspect
import CompactCore.Streaming.Writer

set_option relaxedAutoImplicit false
set_option autoImplicit false

namespace CompactCore.Parallel

open Wire CompactError Io Streaming

/-! ### The scheduler -/

/-- A row group to be encoded. -/
structure RowGroupJob where
  blockIndex : UInt64
  firstRowIndex : UInt64
  jsonl : String
  deriving DecidableEq, Repr

/-- The scheduler's counters, its open row group, and the jobs that it has sent.
`PendingRowGroup` is the writer's buffer under another name. -/
structure Schedule where
  current : RowGroupBuffer
  nextBlockIndex : UInt64
  nextRowIndex : UInt64
  sent : List RowGroupJob
  deriving DecidableEq, Repr

namespace Schedule

def start : Schedule := ⟨.empty, 0, 0, []⟩

def pushLine (line : String) (s : Schedule) : Schedule :=
  { s with current := s.current.pushLine line }

/-- `take_job` and `send_job`. -/
def sendJob (s : Schedule) : Schedule where
  current := .empty
  nextBlockIndex := s.nextBlockIndex
  nextRowIndex := s.nextRowIndex
  sent := s.sent ++ [⟨s.nextBlockIndex, s.nextRowIndex, s.current.data⟩]

/-- Send the open row group, and count it. -/
def flush : EStateM CompactError Schedule Unit := do
  let s ← get
  modify sendJob
  let nextBlockIndex ← okOr (invalidInput "parallel block index overflow")
    (checkedAdd s.nextBlockIndex 1)
  modify fun s => { s with nextBlockIndex := nextBlockIndex }
  let nextRowIndex ← okOr (invalidInput "parallel row count overflow")
    (checkedAdd s.nextRowIndex (UInt64.ofNat s.current.rowCount))
  modify fun s => { s with nextRowIndex := nextRowIndex }

/-- The last row group is not counted any more. -/
def finish : EStateM CompactError Schedule UInt64 := do
  let s ← get
  if s.current.isEmpty then return s.nextBlockIndex
  else do
    modify sendJob
    let nextBlockIndex ← okOr (invalidInput "parallel block index overflow")
      (checkedAdd s.nextBlockIndex 1)
    return nextBlockIndex

def run (input : BufRead) (options : BlockOptions) : EStateM CompactError Schedule UInt64 := do
  forLines options.maxUncompressedBytesPerBlock (addLine options current pushLine flush) input
  finish

end Schedule

/-- The jobs that the scheduler sends as long as no send is refused, and what it returns then. -/
def scheduleJobs (input : BufRead) (options : BlockOptions) : List RowGroupJob × Result UInt64 :=
  match Schedule.run input options .start with
  | .ok jobCount s => (s.sent, .ok jobCount)
  | .error e s => (s.sent, .error e)

/-! ### The workers -/

/-- A block that has been encoded. -/
structure EncodedBlock where
  blockIndex : UInt64
  rowCount : UInt64
  uncompressedSize : UInt64
  compressedSize : UInt64
  checksum : UInt32
  encodedFrame : List UInt8
  deriving DecidableEq, Repr

section

variable [Crc32Fast] [SerdeJson]

def encodeJob (schema : Schema) (job : RowGroupJob) : Result EncodedBlock := do
  let rowGroup ← encodeJsonlRowGroup job.jsonl schema
  let blockPayload ← encodeBlockPayload job.blockIndex job.firstRowIndex rowGroup.rowCount
    rowGroup.rawBytes rowGroup.payload
  let encodedFrame := Framing.encodeV1 .columnBlock blockPayload
  let compressedSize ← tryU64 encodedFrame.length "block frame is too large"
  let rowCount ← tryU64 rowGroup.rowCount "row count is too large"
  let uncompressedSize ← tryU64 rowGroup.rawBytes "row group is too large"
  return ⟨job.blockIndex, rowCount, uncompressedSize, compressedSize,
    CompactCore.checksum blockPayload, encodedFrame⟩

/-! ### The collector -/

/-- What the collector has written. -/
structure EncodedOutput where
  writer : List UInt8
  bytesWritten : UInt64
  metadata : List BlockMetadata
  deriving DecidableEq, Repr

omit [Crc32Fast] [SerdeJson] in
/-- `collect_results`, for the block that comes next. -/
def writeEncoded (s : EncodedOutput) (encoded : EncodedBlock) : Result EncodedOutput := do
  let bytesWritten ← okOr (invalidInput "stream size overflow")
    (checkedAdd s.bytesWritten encoded.compressedSize)
  return {
    writer := s.writer ++ encoded.encodedFrame
    bytesWritten := bytesWritten
    metadata := s.metadata ++ [⟨encoded.blockIndex, s.bytesWritten, encoded.rowCount,
      encoded.uncompressedSize, encoded.compressedSize, encoded.checksum⟩] }

def encodedBlocks : Sink EncodedBlock EncodedOutput := ⟨EncodedBlock.blockIndex, writeEncoded⟩

def EncodedOutput.start (output : List UInt8) : EncodedOutput :=
  ⟨output ++ writeStreamHeader, UInt64.ofNat streamHeaderLen, []⟩

/-- What is done when all threads have ended. -/
def concludeEncode (jobCount : UInt64) (collected : UInt64 × EncodedOutput) :
    Result (List UInt8) := do
  failIf (collected.1 ≠ jobCount) (invalidInput "parallel block results are incomplete")
  let footer ← writeIndexFooter collected.2.metadata
  return collected.2.writer ++ footer

/-- Encode JSONL into a `CMP2` stream using multiple worker threads. -/
def encodeJsonlStreamParallel (input : BufRead) (output : List UInt8) (schema : Schema)
    (options : ParallelOptions) : Concurrent (Result (List UInt8)) :=
  match options.validate with
  | .error e => .pure (.error e)
  | .ok (workers, blockOptions) =>
      (pool encodedBlocks workers (scheduleJobs input blockOptions) (encodeJob schema)
        (.start output) concludeEncode).program

/-! ### What the scheduler sends -/

/-- The rows of some row groups, as the scheduler counts them. -/
def rowTotal (groups : List (List String)) : ℕ :=
  (groups.map fun rows => (UInt64.ofNat rows.length).toNat).sum

/-- The jobs of row groups. -/
inductive Scheduled : List (List String) → List RowGroupJob → Prop
  | nil : Scheduled [] []
  | snoc {groups : List (List String)} {jobs : List RowGroupJob} {rows : List String}
      {job : RowGroupJob} (init : Scheduled groups jobs)
      (index_eq : job.blockIndex.toNat = groups.length)
      (firstRow_eq : job.firstRowIndex.toNat = rowTotal groups)
      (jsonl_eq : job.jsonl = String.join rows) : Scheduled (groups ++ [rows]) (jobs ++ [job])

omit [Crc32Fast] [SerdeJson] in
theorem Scheduled.length_eq {groups : List (List String)} {jobs : List RowGroupJob}
    (h : Scheduled groups jobs) : jobs.length = groups.length := by
  induction h with
  | nil => rfl
  | snoc _ _ _ _ ih => rw [List.length_append, List.length_append, ih]; rfl

omit [Crc32Fast] [SerdeJson] in
/-- A job is numbered by the row groups before its own. -/
theorem Scheduled.index_eq {groups : List (List String)} {jobs : List RowGroupJob}
    (h : Scheduled groups jobs) {k : ℕ} {job : RowGroupJob} (hget : jobs[k]? = some job) :
    job.blockIndex.toNat = k := by
  induction h with
  | nil => cases hget
  | @snoc groups jobs rows last init hindex _ _ ih =>
      rcases Nat.lt_or_ge k jobs.length with hlt | hge
      · rw [List.getElem?_append_left hlt] at hget
        exact ih hget
      · rw [List.getElem?_append_right hge, List.getElem?_singleton] at hget
        split at hget
        · cases hget
          rw [hindex, ← init.length_eq]
          omega
        · cases hget

end

/-- A row group takes in rows and is sent where the rows are cut. -/
structure Schedule.Follows (cut : Cut) (s : Schedule) : Prop where
  scheduled : Scheduled cut.groups s.sent
  current_eq : s.current = RowGroupBuffer.ofRows cut.current
  index_eq : s.nextBlockIndex.toNat = cut.groups.length
  row_eq : s.nextRowIndex.toNat = rowTotal cut.groups
  nonempty : ∀ rows ∈ cut.groups, rows ≠ []

namespace Schedule

theorem rowTotal_concat (groups : List (List String)) (rows : List String) :
    rowTotal (groups ++ [rows]) = rowTotal groups + (UInt64.ofNat rows.length).toNat := by
  simp [rowTotal]

theorem flush_ok {s s' : Schedule} {u : Unit} : flush s = .ok u s' ↔
    s'.nextBlockIndex.toNat = s.nextBlockIndex.toNat + 1 ∧
      s'.nextRowIndex.toNat = s.nextRowIndex.toNat + (UInt64.ofNat s.current.rowCount).toNat ∧
      s'.current = .empty ∧
      s'.sent = s.sent ++ [⟨s.nextBlockIndex, s.nextRowIndex, s.current.data⟩] := by
  obtain ⟨current, nextBlockIndex, nextRowIndex, sent⟩ := s'
  simp only [flush, Method.bind_ok, Method.get_ok, Method.modify_ok, Method.lift_ok, okOr_ok,
    checkedAdd_eq_some, sendJob, Schedule.mk.injEq]
  constructor
  · rintro ⟨_, _, ⟨rfl, rfl⟩, _, _, rfl, _, _, ⟨hindex, rfl⟩, _, _, rfl, _, _, ⟨hrow, rfl⟩, rfl,
      rfl, rfl, rfl⟩
    exact ⟨hindex, hrow, rfl, rfl⟩
  · rintro ⟨hindex, hrow, rfl, rfl⟩
    exact ⟨_, _, ⟨rfl, rfl⟩, (), _, rfl, _, _, ⟨hindex, rfl⟩,
      (), _, rfl, _, _, ⟨hrow, rfl⟩, rfl, rfl, rfl, rfl⟩

theorem Follows.flush {cut : Cut} {s s' : Schedule} {u : Unit} (h : Follows cut s)
    (hne : cut.current ≠ []) (hrun : Schedule.flush s = .ok u s') : Follows cut.flush s' := by
  obtain ⟨hindex, hrow, hcurrent, hsent⟩ := flush_ok.1 hrun
  refine ⟨?_, hcurrent, ?_, ?_, ?_⟩
  · rw [hsent]
    exact h.scheduled.snoc h.index_eq h.row_eq (by rw [h.current_eq]; rfl)
  · rw [hindex, h.index_eq, Cut.flush, List.length_append, List.length_singleton]
  · rw [hrow, h.row_eq, h.current_eq, Cut.flush, rowTotal_concat]
    rfl
  · intro rows hrows
    rcases List.mem_append.1 hrows with hrows | hrows
    · exact h.nonempty rows hrows
    · rwa [List.mem_singleton.1 hrows]

theorem represents : Represents current pushLine flush Follows where
  current_eq _ _ h := h.current_eq
  push cut s row h := by
    refine ⟨h.scheduled, ?_, h.index_eq, h.row_eq, h.nonempty⟩
    rw [pushLine, h.current_eq, RowGroupBuffer.pushLine_ofRows]
    rfl
  flush _ _ _ h hne hrun := h.flush hne hrun

theorem follows_start : Follows .empty start :=
  ⟨.nil, rfl, rfl, rfl, by simp [Cut.empty]⟩

/-- The last row group is sent, if it holds rows. -/
theorem Follows.finish {cut : Cut} {s s' : Schedule} {count : UInt64} (h : Follows cut s)
    (hrun : Schedule.finish s = .ok count s') :
    Scheduled cut.finish s'.sent ∧ count.toNat = s'.sent.length := by
  simp only [Schedule.finish, Method.bind_ok, Method.get_ok] at hrun
  obtain ⟨_, _, ⟨rfl, rfl⟩, hrun⟩ := hrun
  by_cases hnil : cut.current = []
  · have hempty : s.current.isEmpty := by
      rw [h.current_eq]
      exact RowGroupBuffer.isEmpty_ofRows.2 hnil
    rw [if_pos hempty] at hrun
    obtain ⟨rfl, rfl⟩ := Method.pure_ok.1 hrun
    rw [Cut.finish, if_pos hnil, h.index_eq, h.scheduled.length_eq]
    exact ⟨h.scheduled, rfl⟩
  · have hfull : ¬s.current.isEmpty := by
      rw [h.current_eq]
      exact fun hempty => hnil (RowGroupBuffer.isEmpty_ofRows.1 hempty)
    rw [if_neg hfull] at hrun
    simp only [Method.bind_ok, Method.modify_ok, Method.lift_ok, okOr_ok,
      checkedAdd_eq_some] at hrun
    obtain ⟨_, _, rfl, hnext, rfl⟩ := hrun
    rw [Cut.finish, if_neg hnil]
    refine ⟨h.scheduled.snoc h.index_eq h.row_eq (by rw [h.current_eq]; rfl), ?_⟩
    rw [hnext, h.index_eq, ← h.scheduled.length_eq, sendJob, List.length_append]
    rfl

/-- Row groups, none of which is empty, are no more than their rows. -/
theorem length_le_flatten {groups : List (List String)} (h : ∀ rows ∈ groups, rows ≠ []) :
    groups.length ≤ groups.flatten.length := by
  induction groups with
  | nil => exact le_refl _
  | cons rows groups ih =>
      have hlen := ih fun rows' hrows' => h rows' (List.mem_cons_of_mem _ hrows')
      have hpos := List.length_pos_of_ne_nil (h rows List.mem_cons_self)
      rw [List.length_cons, List.flatten_cons, List.length_append]
      omega

theorem rowTotal_le (groups : List (List String)) : rowTotal groups ≤ groups.flatten.length := by
  induction groups with
  | nil => exact le_refl _
  | cons rows groups ih =>
      have hmod : (UInt64.ofNat rows.length).toNat ≤ rows.length := by
        rw [UInt64.toNat_ofNat']
        exact Nat.mod_le _ _
      rw [List.flatten_cons, List.length_append]
      exact Nat.add_le_add hmod ih

/-- There are no more row groups, and no more rows in them, than rows. -/
theorem Follows.le {cut : Cut} {s : Schedule} (h : Follows cut s) :
    cut.groups.length + cut.current.length ≤ cut.rows.length ∧
      rowTotal cut.groups + cut.current.length ≤ cut.rows.length := by
  have hlen := length_le_flatten h.nonempty
  have htotal := rowTotal_le cut.groups
  rw [Cut.rows, List.length_append]
  omega

/-- The scheduler can end where the block index does not overflow. -/
theorem exists_finish {s : Schedule}
    (h : s.current.isEmpty = false → s.nextBlockIndex.toNat + 1 < 2 ^ 64) :
    ∃ count s', finish s = .ok count s' := by
  by_cases hempty : s.current.isEmpty = true
  · refine ⟨s.nextBlockIndex, s, Method.bind_ok.2 ⟨s, s, Method.get_ok.2 ⟨rfl, rfl⟩, ?_⟩⟩
    rw [if_pos hempty]
    rfl
  · refine ⟨UInt64.ofNat (s.nextBlockIndex.toNat + 1), sendJob s,
      Method.bind_ok.2 ⟨s, s, Method.get_ok.2 ⟨rfl, rfl⟩, ?_⟩⟩
    rw [if_neg hempty]
    simp only [Method.bind_ok, Method.modify_ok, Method.lift_ok, okOr_ok, checkedAdd_eq_some]
    exact ⟨(), _, rfl, toNat_ofNat (h (Bool.eq_false_iff.2 hempty)), rfl⟩

end Schedule

/-- **The scheduler sends the jobs of the row groups that the options cut.** -/
theorem scheduleJobs_ok {input : BufRead} {options : BlockOptions} {jobs : List RowGroupJob}
    {count : UInt64} (h : scheduleJobs input options = (jobs, .ok count)) :
    ∃ lines rows, InputLines options.maxUncompressedBytesPerBlock input.bytes lines ∧
      acceptLines options.maxUncompressedBytesPerBlock lines = .ok rows ∧
      Scheduled (cutRows options rows) jobs ∧ count.toNat = jobs.length := by
  rw [scheduleJobs] at h
  split at h
  · rename_i count' s hrun
    cases h
    simp only [Schedule.run, Method.bind_ok] at hrun
    obtain ⟨_, s₁, hlines, hfinish⟩ := hrun
    obtain ⟨lines, hinput, hloop⟩ := forLines_ok.1 hlines
    obtain ⟨rows, hrows, hloop⟩ := forM_addLine.1 hloop
    have hfollows := Schedule.represents.forM_addRow Schedule.follows_start hloop
    obtain ⟨hscheduled, hcount⟩ := hfollows.finish hfinish
    exact ⟨lines, rows, hinput, hrows, hscheduled, hcount⟩
  · cases h

/-- The scheduler fails only where the rows cannot be read, or are too many. -/
theorem exists_scheduleJobs {input : BufRead} {options : BlockOptions} {lines rows : List String}
    (hinput : InputLines options.maxUncompressedBytesPerBlock input.bytes lines)
    (hrows : acceptLines options.maxUncompressedBytesPerBlock lines = .ok rows)
    (hlt : rows.length < 2 ^ 64) :
    ∃ jobs count, scheduleJobs input options = (jobs, .ok count) ∧
      Scheduled (cutRows options rows) jobs ∧ count.toNat = jobs.length := by
  have hone : (1 : UInt64).toNat = 1 := rfl
  have hflush : ∀ cut s, Schedule.Follows cut s → cut.current ≠ [] → cut.rows.length ≤ rows.length →
      ∃ s', Schedule.flush s = .ok () s' := by
    intro cut s h hne hle
    obtain ⟨hgroups, htotal⟩ := h.le
    have hpos := List.length_pos_of_ne_nil hne
    have hcurrent : (UInt64.ofNat s.current.rowCount).toNat = cut.current.length := by
      rw [h.current_eq]
      exact toNat_ofNat (show cut.current.length < 2 ^ 64 by omega)
    refine ⟨⟨.empty, UInt64.ofNat (s.nextBlockIndex.toNat + 1),
      UInt64.ofNat (s.nextRowIndex.toNat + cut.current.length), _⟩,
      Schedule.flush_ok.2 ⟨?_, ?_, rfl, rfl⟩⟩
    · exact toNat_ofNat (by rw [h.index_eq]; omega)
    · rw [hcurrent]
      exact toNat_ofNat (by rw [h.row_eq]; omega)
  obtain ⟨s, hloop⟩ : ∃ s, rows.forM (addRow options Schedule.current Schedule.pushLine
      Schedule.flush) .start = .ok () s :=
    Schedule.represents.exists_forM_addRow hflush Schedule.follows_start
      (Nat.le_of_eq (Nat.zero_add _))
  have hlines : forLines options.maxUncompressedBytesPerBlock (addLine options Schedule.current
      Schedule.pushLine Schedule.flush) input .start = .ok () s :=
    forLines_ok.2 ⟨lines, hinput, forM_addLine.2 ⟨rows, hrows, hloop⟩⟩
  have hfollows := Schedule.represents.forM_addRow Schedule.follows_start hloop
  have hle := hfollows.le.1
  rw [Cut.rows_foldl_add] at hle
  have hroom : s.current.isEmpty = false → s.nextBlockIndex.toNat + 1 < 2 ^ 64 := by
    intro hfull
    rw [hfollows.current_eq, Bool.eq_false_iff, ne_eq, RowGroupBuffer.isEmpty_ofRows] at hfull
    have hpos := List.length_pos_of_ne_nil hfull
    have hstart : (Cut.empty.rows ++ rows).length = rows.length := rfl
    rw [hfollows.index_eq]
    omega
  obtain ⟨count, s', hfinish⟩ := Schedule.exists_finish hroom
  refine ⟨s'.sent, count, ?_, hfollows.finish hfinish⟩
  have hrun : Schedule.run input options .start = .ok count s' :=
    Method.bind_ok.2 ⟨(), s, hlines, hfinish⟩
  rw [scheduleJobs, hrun]

/-! ### What the workers encode -/

section

variable [Crc32Fast] [SerdeJson] {schema : Schema}

omit [SerdeJson] in
/-- What a worker sends for a block. -/
def EncodedBlock.of (block : Block) : EncodedBlock :=
  ⟨block.blockIndex, block.rowCount, block.rawSize, UInt64.ofNat block.frame.length,
    CompactCore.checksum block.payload, block.frame⟩

/-- The block of a job. -/
structure RowGroupJob.Is (job : RowGroupJob) (group : JsonlRowGroup) (block : Block) : Prop where
  index_eq : block.blockIndex = job.blockIndex
  firstRow_eq : block.firstRowIndex = job.firstRowIndex
  rowCount_eq : block.rowCount.toNat = group.rowCount
  rawSize_eq : block.rawSize.toNat = group.rawBytes
  columnBlock_eq : block.columnBlock = group.payload

/-- **What a worker encodes.** -/
theorem encodeJob_ok {job : RowGroupJob} {encoded : EncodedBlock} :
    encodeJob schema job = .ok encoded ↔ ∃ group block,
      encodeJsonlRowGroup job.jsonl schema = .ok group ∧ job.Is group block ∧
        block.frame.length < 2 ^ 64 ∧ encoded = .of block := by
  simp only [encodeJob, bind_ok, encodeBlockPayload_ok, tryU64_ok, pure_ok]
  constructor
  · rintro ⟨group, hgroup, payload, ⟨hrows, hraw, hlen, rfl⟩, size, hsize, rowCount, hrowCount,
      rawSize, hrawSize, rfl⟩
    refine ⟨group, ⟨job.blockIndex, job.firstRowIndex, UInt64.ofNat group.rowCount,
      UInt64.ofNat group.rawBytes, group.payload⟩, hgroup,
      ⟨rfl, rfl, toNat_ofNat hrows, toNat_ofNat hraw, rfl⟩, hsize ▸ size.toNat_lt, ?_⟩
    rw [EncodedBlock.of, eq_ofNat hsize, eq_ofNat hrowCount, eq_ofNat hrawSize]
    rfl
  · rintro ⟨group, block, hgroup, ⟨hindex, hfirst, hrows, hraw, hcolumn⟩, hlen, rfl⟩
    have hpayload := block.length_payload
    have hframe := block.length_frame
    have hrows' := hrows ▸ block.rowCount.toNat_lt
    have hraw' := hraw ▸ block.rawSize.toNat_lt
    have hblock : (⟨job.blockIndex, job.firstRowIndex, UInt64.ofNat group.rowCount,
        UInt64.ofNat group.rawBytes, group.payload⟩ : Block) = block := by
      rw [← hindex, ← hfirst, ← eq_ofNat hrows, ← eq_ofNat hraw, ← hcolumn]
    refine ⟨group, hgroup, block.payload, ⟨hrows', hraw', ?_, ?_⟩, UInt64.ofNat block.frame.length,
      toNat_ofNat hlen, block.rowCount, hrows, block.rawSize, hraw, ?_⟩
    · rw [← hcolumn]
      omega
    · rw [hblock]
    · rw [EncodedBlock.of, hindex]
      rfl

/-- What the collector has written when it has written some blocks. -/
def EncodedOutput.of (base : List UInt8) (blocks : List Block) : EncodedOutput :=
  ⟨base ++ blockLog.flat blocks, UInt64.ofNat (streamEnd blocks),
    metadataFrom streamHeaderLen blocks⟩

omit [SerdeJson] in
/-- **What the collector does with the block that comes next.** -/
theorem writeEncoded_of {base : List UInt8} {blocks : List Block} {block : Block}
    {out : EncodedOutput} (hlt : streamEnd blocks < 2 ^ 64) (hlen : block.frame.length < 2 ^ 64) :
    writeEncoded (.of base blocks) (.of block) = .ok out ↔
      streamEnd (blocks ++ [block]) < 2 ^ 64 ∧ out = .of base (blocks ++ [block]) := by
  have hstart : (UInt64.ofNat (streamEnd blocks)).toNat = streamEnd blocks := toNat_ofNat hlt
  have hsize : (UInt64.ofNat block.frame.length).toNat = block.frame.length := toNat_ofNat hlen
  have hout : metadataFrom streamHeaderLen (blocks ++ [block]) =
      metadataFrom streamHeaderLen blocks ++ [block.metadata (streamEnd blocks)] := by
    rw [metadataFrom_append]
    rfl
  simp only [writeEncoded, EncodedOutput.of, EncodedBlock.of, bind_ok, okOr_ok, checkedAdd_eq_some,
    hstart, hsize, pure_ok, streamEnd_snoc, hout, LogFormat.flat_append, LogFormat.flat_singleton]
  constructor
  · rintro ⟨next, hnext, rfl⟩
    refine ⟨hnext ▸ next.toNat_lt, ?_⟩
    rw [eq_ofNat hnext, List.append_assoc]
    rfl
  · rintro ⟨hend, rfl⟩
    refine ⟨_, toNat_ofNat hend, ?_⟩
    rw [List.append_assoc]
    rfl

omit [Crc32Fast] in
/-- The blocks of row groups have as many rows as these. -/
theorem blockRows_encoded {maxRowLen : ℕ} {groups : List (List String)} {blocks : List Block}
    (h : Encoded schema [] groups blocks)
    (hrows : ∀ rows ∈ groups, ∀ row ∈ rows, IsRow maxRowLen row) :
    blockRows blocks = groups.flatten.length ∧ rowTotal groups = groups.flatten.length := by
  induction h with
  | nil => exact ⟨rfl, rfl⟩
  | @snoc groups blocks rows group block _ hencode hnext ih =>
      have hcount := (encodeJsonlRowGroup_counts hencode (hrows rows (by simp))).1
      have hlt := block.rowCount.toNat_lt
      rw [hnext.rowCount_eq, hcount] at hlt
      obtain ⟨hblocks, htotal⟩ := ih fun rows' hrows' => hrows rows' (List.mem_append_left _ hrows')
      rw [blockRows_append, blockRows_singleton, Schedule.rowTotal_concat, toNat_ofNat hlt,
        hnext.rowCount_eq, hcount, hblocks, htotal, List.flatten_append, List.length_append]
      simp

/-- **What the blocks are in block order**: those that the sequential writer writes. -/
theorem foldlM_encodedBlocks {maxRowLen : ℕ} {groups : List (List String)}
    {jobs : List RowGroupJob} {output : List UInt8} {out : EncodedOutput}
    (h : Scheduled groups jobs) (hrows : ∀ rows ∈ groups, ∀ row ∈ rows, IsRow maxRowLen row) :
    jobs.foldlM (encodedBlocks.step (encodeJob schema)) (.start output) = .ok out ↔
      ∃ blocks, Encoded schema [] groups blocks ∧ streamEnd blocks < 2 ^ 64 ∧
        out = .of (output ++ writeStreamHeader) blocks := by
  induction h generalizing out with
  | nil =>
      rw [List.foldlM_nil, pure_ok]
      constructor
      · rintro rfl
        refine ⟨[], .nil, (by decide : streamHeaderLen + 0 < 2 ^ 64), ?_⟩
        simp [EncodedOutput.of, EncodedOutput.start, streamEnd, metadataFrom]
      · rintro ⟨blocks, hblocks, -, rfl⟩
        have hnil : blocks = [] := List.length_eq_zero_iff.1 hblocks.length_eq
        simp [hnil, EncodedOutput.of, EncodedOutput.start, streamEnd, metadataFrom]
  | @snoc groups jobs rows job init hindex hfirst hjsonl ih =>
      have hrows' : ∀ rows ∈ groups, ∀ row ∈ rows, IsRow maxRowLen row :=
        fun rows' hmem => hrows rows' (List.mem_append_left _ hmem)
      simp only [List.foldlM_append, bind_ok, ih hrows', List.foldlM_cons, List.foldlM_nil, pure_ok,
        Sink.step_ok, encodeJob_ok, exists_eq_right, hjsonl]
      constructor
      · rintro ⟨_, ⟨blocks, hblocks, hend, rfl⟩, _, ⟨group, block, hgroup, his, hlen, rfl⟩, hwrite⟩
        obtain ⟨hend', rfl⟩ := (writeEncoded_of hend hlen).1 hwrite
        refine ⟨blocks ++ [block], hblocks.snoc hgroup ⟨?_, ?_, his.rowCount_eq, his.rawSize_eq,
          his.columnBlock_eq⟩, hend', rfl⟩
        · rw [his.index_eq, hindex, List.nil_append, hblocks.length_eq]
        · rw [his.firstRow_eq, hfirst, List.nil_append, (blockRows_encoded hblocks hrows').1,
            (blockRows_encoded hblocks hrows').2]
      · rintro ⟨_, hblocks, hend, rfl⟩
        generalize hgroups : groups ++ [rows] = groups' at hblocks
        cases hblocks with
        | nil => simp at hgroups
        | @snoc groups'' blocks rows'' group block hinit hgroup hnext =>
            obtain ⟨rfl, hrow⟩ := List.append_inj' hgroups rfl
            cases hrow
            rw [List.nil_append] at hnext
            have hend' := hend
            rw [streamEnd_snoc] at hend'
            refine ⟨_, ⟨blocks, hinit, by omega, rfl⟩, _, ⟨group, block, hgroup, ⟨?_, ?_,
              hnext.rowCount_eq, hnext.rawSize_eq, hnext.columnBlock_eq⟩, by omega, rfl⟩,
              (writeEncoded_of (by omega) (by omega)).2 ⟨hend, rfl⟩⟩
            · rw [← UInt64.toNat_inj, hnext.index_eq, hindex, hinit.length_eq]
            · rw [← UInt64.toNat_inj, hnext.firstRow_eq, hfirst, (blockRows_encoded hinit hrows').1,
                (blockRows_encoded hinit hrows').2]

omit [SerdeJson] in
/-- Numbered jobs, for the collector. -/
theorem Scheduled.numbered [SerdeJson] {groups : List (List String)} {jobs : List RowGroupJob}
    (h : Scheduled groups jobs) (schema : Schema) (hlt : jobs.length < 2 ^ 64) :
    encodedBlocks.Numbered (encodeJob schema) jobs where
  index_eq {k job encoded} hget hencode := by
    obtain ⟨group, block, -, his, -, rfl⟩ := encodeJob_ok.1 hencode
    show block.blockIndex.toNat = k
    rw [his.index_eq, h.index_eq hget]
  nodup := by
    rw [List.nodup_iff_getElem?_ne_getElem?]
    intro i j hij hj heq
    have hi := h.index_eq (List.getElem?_eq_getElem (lt_trans hij hj))
    have hj' := h.index_eq (heq.symm.trans (List.getElem?_eq_getElem (lt_trans hij hj)))
    omega
  length_lt := hlt

omit [SerdeJson] in
theorem concludeEncode_ok {base stream : List UInt8} {blocks : List Block}
    {jobCount resultCount : UInt64} :
    concludeEncode jobCount (resultCount, .of base blocks) = .ok stream ↔
      resultCount = jobCount ∧ blocks.length < 2 ^ 64 ∧
        stream = base ++ blockLog.flat blocks ++
          indexFooter (metadataFrom streamHeaderLen blocks) := by
  simp only [concludeEncode, EncodedOutput.of, bind_ok, failIf_ok, not_not, exists_const,
    writeIndexFooter_ok, length_metadataFrom, pure_ok, and_congr_right_iff]
  rintro -
  constructor
  · rintro ⟨_, ⟨hlen, rfl⟩, rfl⟩
    exact ⟨hlen, rfl⟩
  · rintro ⟨hlen, rfl⟩
    exact ⟨_, ⟨hlen, rfl⟩, rfl⟩

/-! ### Every run returns the stream of the sequential encoder -/

/-- **Every run writes the blocks of the row groups**, where these can be encoded. -/
theorem always_encoded {input : BufRead} (output : List UInt8) {options : ParallelOptions}
    {workers : Workers} {lines rows : List String} {blocks : List Block}
    (hvalid : options.validate = .ok (workers, options.blockOptions))
    (hinput : InputLines options.blockOptions.maxUncompressedBytesPerBlock input.bytes lines)
    (hrows : acceptLines options.blockOptions.maxUncompressedBytesPerBlock lines = .ok rows)
    (hlt : rows.length < 2 ^ 64)
    (hencoded : Encoded schema [] (cutRows options.blockOptions rows) blocks)
    (hend : streamEnd blocks < 2 ^ 64) :
    (encodeJsonlStreamParallel input output schema options).Always
      (· = .ok (output ++ writeStreamHeader ++ blockLog.flat blocks ++
        indexFooter (metadataFrom streamHeaderLen blocks))) := by
  have hgroups := isRow_of_cutRows options.blockOptions hrows
  obtain ⟨jobs, count, hschedule, hscheduled, hcount⟩ := exists_scheduleJobs hinput hrows hlt
  have hfold : jobs.foldlM (encodedBlocks.step (encodeJob schema)) (.start output) =
      .ok (.of (output ++ writeStreamHeader) blocks) :=
    (foldlM_encodedBlocks hscheduled hgroups).2 ⟨blocks, hencoded, hend, rfl⟩
  have hnumbered : encodedBlocks.Numbered (encodeJob schema) jobs :=
    hscheduled.numbered schema (hcount ▸ count.toNat_lt)
  have hlen : UInt64.ofNat jobs.length = count := by rw [← hcount, UInt64.ofNat_toNat]
  have hblocks : blocks.length < 2 ^ 64 := by
    rw [hencoded.length_eq, ← hscheduled.length_eq, ← hcount]
    exact count.toNat_lt
  rw [encodeJsonlStreamParallel, hvalid]
  refine always_ok (by rwa [hschedule]) (by rw [hschedule]) (by rwa [hschedule]) ?_
  rw [hschedule, concludeEncode_ok]
  exact ⟨hlen, hblocks, rfl⟩

/-- **The parallel encoder refines the sequential one**, under every schedule. -/
theorem encodeJsonlStreamParallel_of_sequential {input : BufRead} {output stream : List UInt8}
    {options : ParallelOptions} (hpos : 0 < options.workerCount)
    (hle : options.workerCount ≤ maxParallelWorkers)
    (h : encodeJsonlStream input output schema options.blockOptions = .ok stream) :
    (encodeJsonlStreamParallel input output schema options).Always (· = .ok stream) := by
  obtain ⟨lines, rows, blocks, w, hinput, hrows, hwrote, hoptions, rfl⟩ := encodeJsonlStream_wrote h
  have hvalid :
      options.validate = .ok (⟨options.workerCount, hpos, hle⟩, options.blockOptions) := by
    simp only [ParallelOptions.validate, bind_ok, Workers.validate_ok, pure_ok]
    exact ⟨⟨options.workerCount, hpos, hle⟩, rfl, options.blockOptions, hoptions, rfl⟩
  have hgroups := isRow_of_cutRows options.blockOptions hrows
  -- the writer has counted its bytes and its rows in words
  have hend : streamEnd blocks < 2 ^ 64 := by
    have hoffset := hwrote.offset_eq
    rw [List.nil_append] at hoffset
    exact hoffset ▸ w.bytesWritten.toNat_lt
  have hlt : rows.length < 2 ^ 64 := by
    have hrow := hwrote.row_eq
    rw [List.nil_append, (blockRows_encoded hwrote.encoded hgroups).1, flatten_cutRows] at hrow
    exact hrow ▸ w.rowsWritten.toNat_lt
  rw [hwrote.writer_eq, hwrote.metadata_eq]
  exact always_encoded output hvalid hinput hrows hlt hwrote.encoded hend

end

section

open scoped CompactCore.Reference

set_option maxRecDepth 8192 in
/-- Two blocks, encoded by two workers. -/
theorem encodeJsonlStreamParallel_two_rows : ∃ stream,
    encodeJsonlStream (.cursor (asBytes Reference.idLines)) []
        (Reference.idSchema .deltaVarintU64) ⟨1, 64⟩ = .ok stream ∧
      (encodeJsonlStreamParallel (.cursor (asBytes Reference.idLines)) []
        (Reference.idSchema .deltaVarintU64) ⟨2, 1, 64⟩).Always (· = .ok stream) := by
  have hrun : ∃ stream, encodeJsonlStream (.cursor (asBytes Reference.idLines)) []
      (Reference.idSchema .deltaVarintU64) ⟨1, 64⟩ = .ok stream ∧ True :=
    Reference.exists_ok _ (by decide +kernel)
  obtain ⟨stream, hstream, -⟩ := hrun
  exact ⟨stream, hstream, encodeJsonlStreamParallel_of_sequential (by decide) (by decide) hstream⟩

end

section

variable [Crc32Fast] [SerdeJson] {schema : Schema}

/-! ### Which streams can be inspected -/

/-- **What a stream of the parallel encoder is**: like the sequential one, but any number of blocks
long. -/
theorem encodeJsonlStreamParallel_returns {input : BufRead} {output stream : List UInt8}
    {options : ParallelOptions}
    (h : (encodeJsonlStreamParallel input output schema options).Returns (.ok stream)) :
    ∃ lines rows blocks,
      InputLines options.blockOptions.maxUncompressedBytesPerBlock input.bytes lines ∧
      acceptLines options.blockOptions.maxUncompressedBytesPerBlock lines = .ok rows ∧
      Encoded schema [] (cutRows options.blockOptions rows) blocks ∧
      stream = output ++ (writeStreamHeader ++ (blockLog.flat blocks ++
        indexFooter (metadataFrom streamHeaderLen blocks))) := by
  rw [encodeJsonlStreamParallel] at h
  split at h
  · have hpure := Concurrent.Always.of_returns (Concurrent.always_pure.2 rfl) h
    cases hpure
  · rename_i workers blockOptions hvalid
    simp only [ParallelOptions.validate, bind_ok, BlockOptions.validate_ok, pure_ok,
      Prod.mk.injEq] at hvalid
    obtain ⟨_, -, _, ⟨-, -, rfl⟩, rfl, rfl⟩ := hvalid
    obtain ⟨count, hcount⟩ := (Pool.always_outcome.of_returns h).exists_outcome
    have hschedule : scheduleJobs input options.blockOptions =
        ((scheduleJobs input options.blockOptions).1, .ok count) := Prod.ext rfl hcount
    obtain ⟨lines, rows, hlines, hrows, hscheduled, hlen⟩ := scheduleJobs_ok hschedule
    have hgroups := isRow_of_cutRows options.blockOptions hrows
    have hnumbered := hscheduled.numbered schema (hlen ▸ count.toNat_lt)
    obtain ⟨_, out, -, hfold, hconclude⟩ := ((always_returned hnumbered).of_returns h).of_ok
    obtain ⟨blocks, hencoded, -, rfl⟩ := (foldlM_encodedBlocks hscheduled hgroups).1 hfold
    obtain ⟨-, -, rfl⟩ := concludeEncode_ok.1 hconclude
    exact ⟨lines, rows, blocks, hlines, hrows, hencoded, by simp only [List.append_assoc]⟩

omit [Crc32Fast] in
/-- The blocks of row groups have as many raw bytes as the rows. -/
theorem blockRaw_encoded {maxRowLen : ℕ} {groups : List (List String)} {blocks : List Block}
    (h : Encoded schema [] groups blocks)
    (hrows : ∀ rows ∈ groups, ∀ row ∈ rows, IsRow maxRowLen row) :
    blockRaw blocks = (groups.flatten.map String.utf8ByteSize).sum := by
  induction h with
  | nil => rfl
  | @snoc groups blocks rows group block _ hencode hnext ih =>
      have hraw := (encodeJsonlRowGroup_counts hencode (hrows rows (by simp))).2
      rw [blockRaw_append, ih fun rows' hrows' => hrows rows' (List.mem_append_left _ hrows'),
        List.flatten_append, List.map_append, List.sum_append, blockRaw]
      simp [hnext.rawSize_eq, hraw]

/-- Which blocks of row groups can be inspected. -/
theorem inspectJsonlStream_encoded {maxRowLen : ℕ} {groups : List (List String)}
    {blocks : List Block} {stream : List UInt8} (hencoded : Encoded schema [] groups blocks)
    (hrows : ∀ rows ∈ groups, ∀ row ∈ rows, IsRow maxRowLen row)
    (hlimit : ∀ rows ∈ groups, ∀ group, encodeJsonlRowGroup (String.join rows) schema = .ok group →
      blockHeaderLen + group.payload.length ≤ maxEncodedBlockBytes)
    (hstream : stream = writeStreamHeader ++ (blockLog.flat blocks ++
      indexFooter (metadataFrom streamHeaderLen blocks)))
    (hfit : Fits stream) :
    (∃ report, inspectJsonlStream stream = .ok report ∧ report.footerIndex = some report.blocks) ↔
      groups.length ≤ maxStreamBlocks ∧ (groups.flatten.map String.utf8ByteSize).sum < 2 ^ 64 := by
  have hraw := blockRaw_encoded hencoded hrows
  have hcount := (blockRows_encoded hencoded hrows).1
  have hpayload : ∀ block ∈ blocks, block.payload.length ≤ maxEncodedBlockBytes := by
    intro block hmem
    obtain ⟨rows, hmem, group, done, hencode, hnext⟩ := hencoded.mem hmem
    rw [Block.length_payload, hnext.columnBlock_eq]
    exact hlimit rows hmem group hencode
  have hchain : blockLog.Chain [] blocks := hencoded.chain hpayload
  constructor
  · rintro ⟨report, hinspect, hfooter⟩
    obtain ⟨blocks', sealed', hstream', -, hraw', rfl⟩ := (inspectJsonlStream_ok hfit).1 hinspect
    cases sealed' with
    | false => cases hfooter
    | true =>
        -- the blocks that were written are at the start of those that were read
        have hholds : blockLog.Holds stream streamHeaderLen blocks := by
          refine ⟨hchain, ?_⟩
          rw [hstream]
          exact at_mid writeStreamHeader _ _
        obtain ⟨rest, rfl⟩ := hholds.isPrefix_complete (hstream'.complete hfit)
        have hle := hstream'.length_le rfl
        rw [List.length_append] at hle
        rw [blockRaw_append] at hraw'
        rw [← hencoded.length_eq, ← hraw]
        omega
  · rintro ⟨hle, hbytes⟩
    have hrowsLe : groups.flatten.length ≤ (groups.flatten.map String.utf8ByteSize).sum := by
      refine length_le_bytes fun row hrow => ?_
      obtain ⟨rows, hmem, hrow⟩ := List.mem_flatten.1 hrow
      exact (hrows rows hmem row hrow).size_pos
    have hsealed : Stream stream blocks true := by
      refine ⟨hchain, ?_, fun _ => hencoded.length_eq.trans_le hle⟩
      rw [hstream, footerOf, if_pos rfl]
    exact ⟨_, (inspectJsonlStream_ok hfit).2 ⟨blocks, true, hsealed, by omega, by omega, rfl⟩, rfl⟩

/-- **Which streams of the parallel encoder can be inspected**: those that have no more blocks than
a footer may list, and whose sizes add up to a word. -/
theorem inspectJsonlStream_parallel {input : BufRead} {stream : List UInt8}
    {options : ParallelOptions}
    (h : (encodeJsonlStreamParallel input [] schema options).Returns (.ok stream))
    (hfit : Fits stream) :
    ∃ lines rows, InputLines options.blockOptions.maxUncompressedBytesPerBlock input.bytes lines ∧
      acceptLines options.blockOptions.maxUncompressedBytesPerBlock lines = .ok rows ∧
      ((∀ groupRows ∈ cutRows options.blockOptions rows, ∀ group,
          encodeJsonlRowGroup (String.join groupRows) schema = .ok group →
            blockHeaderLen + group.payload.length ≤ maxEncodedBlockBytes) →
        ((∃ report, inspectJsonlStream stream = .ok report ∧
            report.footerIndex = some report.blocks) ↔
          (cutRows options.blockOptions rows).length ≤ maxStreamBlocks ∧
            (rows.map String.utf8ByteSize).sum < 2 ^ 64)) := by
  obtain ⟨lines, rows, blocks, hlines, hrows, hencoded, hstream⟩ :=
    encodeJsonlStreamParallel_returns h
  rw [List.nil_append] at hstream
  refine ⟨lines, rows, hlines, hrows, fun hlimit => ?_⟩
  have hgroups := isRow_of_cutRows options.blockOptions hrows
  have hinspect := inspectJsonlStream_encoded hencoded hgroups hlimit hstream hfit
  rwa [flatten_cutRows] at hinspect

end

/-! ### More blocks than a footer may list -/

section

open scoped CompactCore.Reference

/-- Row groups of one row each. -/
def oneRowGroups (n : ℕ) : List (List String) := List.replicate n [Reference.idLine ++ "\n"]

theorem cutRows_repeated (n : ℕ) :
    cutRows ⟨1, 64⟩ (List.replicate n (Reference.idLine ++ "\n")) = oneRowGroups n := by
  have hadd (groups : List (List String)) :
      Cut.add ⟨1, 64⟩ ⟨groups, []⟩ (Reference.idLine ++ "\n") =
        ⟨groups ++ [[Reference.idLine ++ "\n"]], []⟩ := rfl
  have hfold (groups : List (List String)) :
      (List.replicate n (Reference.idLine ++ "\n")).foldl (Cut.add ⟨1, 64⟩) ⟨groups, []⟩ =
        ⟨groups ++ oneRowGroups n, []⟩ := by
    induction n generalizing groups with
    | zero => rw [oneRowGroups, List.replicate_zero, List.replicate_zero, List.append_nil]; rfl
    | succ n ih =>
        rw [List.replicate_succ, List.foldl_cons, hadd, ih, List.append_assoc]
        rfl
  rw [cutRows, Cut.empty, hfold]
  rfl

theorem acceptLines_repeated (n : ℕ) :
    acceptLines 64 (List.replicate n (Reference.idLine ++ "\n")) =
      .ok (List.replicate n (Reference.idLine ++ "\n")) := by
  have hline :
      acceptLine 64 (Reference.idLine ++ "\n") = .ok (some (Reference.idLine ++ "\n")) := by
    decide +kernel
  have hlines : (List.replicate n (Reference.idLine ++ "\n")).mapM (acceptLine 64) =
      .ok (List.replicate n (some (Reference.idLine ++ "\n"))) := by
    induction n with
    | zero => rfl
    | succ n ih =>
        rw [List.replicate_succ, List.mapM_cons, hline, ih]
        rfl
  rw [acceptLines, hlines]
  simp [List.reduceOption, bind, Except.bind, pure, Except.pure]

/-- Any number of row groups of one row can be encoded. -/
theorem exists_encoded_repeated {group : JsonlRowGroup} {schema : Schema}
    (hgroup : encodeJsonlRowGroup (Reference.repeated 1) schema = .ok group)
    (hcount : group.rowCount = 1) (hraw : group.rawBytes = 9) {n : ℕ} (hn : n < 2 ^ 64) :
    ∃ blocks, Encoded schema [] (oneRowGroups n) blocks ∧ blocks.length = n ∧ blockRows blocks = n ∧
      streamEnd blocks = streamHeaderLen + n * (62 + group.payload.length) := by
  induction n with
  | zero => exact ⟨[], .nil, rfl, rfl, by rw [Nat.zero_mul]; rfl⟩
  | succ n ih =>
      obtain ⟨blocks, hencoded, hlen, hrows, hend⟩ := ih (by omega)
      have hnext : (⟨UInt64.ofNat n, UInt64.ofNat n, 1, 9, group.payload⟩ : Block).IsNext
          ([] ++ blocks) group := by
        refine ⟨?_, ?_, hcount.symm, hraw.symm, rfl⟩
        · rw [List.nil_append, hlen]
          exact toNat_ofNat (by omega)
        · rw [List.nil_append, hrows]
          exact toNat_ofNat (by omega)
      have hgroups : oneRowGroups (n + 1) = oneRowGroups n ++ [[Reference.idLine ++ "\n"]] :=
        List.replicate_succ'
      refine ⟨blocks ++ [_], hgroups ▸ hencoded.snoc hgroup hnext, ?_, ?_, ?_⟩
      · rw [List.length_append, hlen]
        rfl
      · rw [blockRows_append, hrows, blockRows_singleton]
        rfl
      · have hheader : frameHeaderLen = 18 := rfl
        rw [streamEnd_snoc, hend, Block.length_frame, Block.length_payload]
        dsimp only
        rw [Nat.succ_mul]
        omega

/-- What the parallel encoder makes of any number of rows, with a block for each. -/
theorem returns_repeated {n : ℕ} (hn : n < 2 ^ 56) : ∃ input group blocks stream,
    (encodeJsonlStreamParallel input [] (Reference.idSchema .deltaVarintU64) ⟨2, 1, 64⟩).Returns
        (.ok stream) ∧
      InputLines 64 input.bytes (List.replicate n (Reference.idLine ++ "\n")) ∧
      encodeJsonlRowGroup (Reference.repeated 1) (Reference.idSchema .deltaVarintU64) = .ok group ∧
      blockHeaderLen + group.payload.length ≤ maxEncodedBlockBytes ∧
      Encoded (Reference.idSchema .deltaVarintU64) [] (oneRowGroups n) blocks ∧
      stream = writeStreamHeader ++ (blockLog.flat blocks ++
        indexFooter (metadataFrom streamHeaderLen blocks)) ∧
      Fits stream := by
  obtain ⟨group, hgroup, hcount, hraw, -, hpayload⟩ :=
    exists_encodeJsonlRowGroup_repeated (n := 1) (by omega)
  obtain ⟨blocks, hencoded, hlen, -, hend⟩ := exists_encoded_repeated hgroup hcount hraw (n := n)
    (by omega)
  have hstart : streamHeaderLen = 10 := rfl
  have hmul : n * (62 + group.payload.length) ≤ n * 101 := Nat.mul_le_mul_left n (by omega)
  have hinput : InputLines 64 (BufRead.cursor (asBytes (Reference.repeated n))).bytes
      (List.replicate n (Reference.idLine ++ "\n")) := by
    rw [BufRead.bytes_cursor]
    refine inputLines_join (by decide) ?_ ?_
    · intro line hmem
      rw [List.eq_of_mem_replicate hmem]
      exact ⟨Reference.idLine, rfl, by decide +kernel⟩
    · intro line hmem
      rw [List.eq_of_mem_replicate hmem]
      decide +kernel
  have hvalid : (⟨2, 1, 64⟩ : ParallelOptions).validate =
      .ok (⟨2, by decide, by decide⟩, ⟨1, 64⟩) := rfl
  have halways := always_encoded [] hvalid hinput (acceptLines_repeated n)
    (by rw [List.length_replicate]; omega) (by rw [cutRows_repeated]; exact hencoded) (by omega)
  obtain ⟨r, hreturns, rfl⟩ := halways.exists
  refine ⟨_, group, blocks, _, hreturns, hinput, hgroup, ?_, hencoded, ?_, ?_⟩
  · have hheader : blockHeaderLen = 44 := rfl
    have hmax : 100 ≤ maxEncodedBlockBytes := by decide
    omega
  · simp only [List.nil_append, List.append_assoc]
  · have hflat : streamEnd blocks = streamHeaderLen + (blockLog.flat blocks).length := rfl
    have hheader : writeStreamHeader.length = 10 := rfl
    rw [Fits, wordSize]
    simp only [List.length_append, List.nil_append, hheader, length_indexFooter,
      length_metadataFrom, indexEntryLen]
    omega

/-- The blocks of one row each are within the limit of the readers. -/
theorem payload_le_oneRowGroups {n : ℕ} {schema : Schema} {group : JsonlRowGroup}
    (hgroup : encodeJsonlRowGroup (Reference.repeated 1) schema = .ok group)
    (hlimit : blockHeaderLen + group.payload.length ≤ maxEncodedBlockBytes) :
    ∀ rows ∈ oneRowGroups n, ∀ group', encodeJsonlRowGroup (String.join rows) schema = .ok group' →
      blockHeaderLen + group'.payload.length ≤ maxEncodedBlockBytes := by
  intro rows hmem group' hgroup'
  have hsame : encodeJsonlRowGroup (String.join rows) schema = .ok group := by
    rw [List.eq_of_mem_replicate hmem]
    exact hgroup
  rw [hsame] at hgroup'
  cases hgroup'
  exact hlimit

/-- Two blocks make a stream that can be inspected. -/
theorem inspectJsonlStream_parallel_two_rows : ∃ input stream report,
    (encodeJsonlStreamParallel input [] (Reference.idSchema .deltaVarintU64) ⟨2, 1, 64⟩).Returns
        (.ok stream) ∧
      inspectJsonlStream stream = .ok report ∧ report.footerIndex = some report.blocks := by
  obtain ⟨input, group, _, stream, hreturns, hinput, hgroup, hlimit, -, -, hfit⟩ :=
    returns_repeated (n := 2) (by decide)
  obtain ⟨lines, rows, hlines, hrows, hiff⟩ := inspectJsonlStream_parallel hreturns hfit
  rw [← hinput.unique hlines] at hrows
  obtain rfl : _ = rows := Except.ok.inj ((acceptLines_repeated 2).symm.trans hrows)
  have hcut : cutRows ⟨1, 64⟩ (List.replicate 2 (Reference.idLine ++ "\n")) = oneRowGroups 2 :=
    cutRows_repeated 2
  obtain ⟨report, hinspect, hfooter⟩ := (hiff (by
    rw [hcut]
    exact payload_le_oneRowGroups hgroup hlimit)).2 ⟨by decide +kernel, by decide +kernel⟩
  exact ⟨input, stream, report, hreturns, hinspect, hfooter⟩

/-- One block more than a footer may list: the parallel encoder returns a stream within all other
limits, which cannot be inspected. -/
theorem inspectJsonlStream_parallel_too_many : ∃ input group stream,
    (encodeJsonlStreamParallel input [] (Reference.idSchema .deltaVarintU64) ⟨2, 1, 64⟩).Returns
        (.ok stream) ∧
      encodeJsonlRowGroup (Reference.repeated 1) (Reference.idSchema .deltaVarintU64) = .ok group ∧
      blockHeaderLen + group.payload.length ≤ maxEncodedBlockBytes ∧
      ¬∃ report, inspectJsonlStream stream = .ok report ∧
        report.footerIndex = some report.blocks := by
  obtain ⟨n, hn⟩ : ∃ n, n = maxStreamBlocks + 1 := ⟨_, rfl⟩
  have hlt : maxStreamBlocks + 1 < 2 ^ 56 := by decide
  obtain ⟨input, group, blocks, stream, hreturns, -, hgroup, hlimit, hencoded, hstream, hfit⟩ :=
    returns_repeated (hn ▸ hlt)
  refine ⟨input, group, stream, hreturns, hgroup, hlimit, fun hinspect => ?_⟩
  have hrows : ∀ rows ∈ oneRowGroups n, ∀ row ∈ rows, IsRow 64 row := by
    rw [← cutRows_repeated]
    exact isRow_of_cutRows ⟨1, 64⟩ (acceptLines_repeated n)
  have hlimits := payload_le_oneRowGroups (n := n) hgroup hlimit
  have hle := ((inspectJsonlStream_encoded hencoded hrows hlimits hstream hfit).1 hinspect).1
  rw [oneRowGroups, List.length_replicate] at hle
  omega

end

end CompactCore.Parallel
