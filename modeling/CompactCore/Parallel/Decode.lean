/-
**The parallel decoder.**

A scheduler scans the records of a stream and sends the payload of every block, workers decode the
columns, and a collector writes the texts in block order.  The scheduler checks what the sequential
reader checks of a record, a worker what it checks of a text; so the decoder returns what the
sequential reader returns, whatever the order of its threads.

Main definitions:

* `CompactCore.Parallel.scheduleDecodeJobs`, `CompactCore.Parallel.decodeJob`,
  `CompactCore.Parallel.decodedBlocks` — scheduler, worker and collector;
* `CompactCore.Parallel.decodeJsonlStreamParallel` — the decoder;
* `CompactCore.Parallel.Scanned` — a scan behind some blocks.

Main results:

* `CompactCore.Parallel.scheduleDecodeJobs_sent`, `CompactCore.Parallel.scheduleDecodeJobs_stream` —
  what the scheduler sends;
* `CompactCore.Parallel.foldlM_decodedBlocks` — what the texts are in block order;
* `CompactCore.Parallel.always_decoded` — **every run returns what the sequential reader returns**.
-/

import CompactCore.Parallel.Collect
import CompactCore.Streaming.Reader

set_option relaxedAutoImplicit false
set_option autoImplicit false

namespace CompactCore.Parallel

open Wire CompactError Io Streaming

section

variable [Crc32Fast]

/-! ### The scheduler -/

/-- A block to be decoded: a parsed payload that owns its bytes. -/
abbrev DecodeJob := ParsedBlockPayload

/-- What the scheduler does with a record: it sends the job of a block, and then counts the
block. -/
def nextDecodeJob (data : List UInt8) (s : ScanState) :
    Result (Option (DecodeJob × Result ScanState)) := do
  let (record, position) ← readNextRecordFrom data s.position
  match record with
  | .frame frame => do
      let (payload, parsed) ← openFrame frame
      s.expectNext parsed
      let metadata ← metadataOf s.nextOffset frame.length payload parsed
      failIf (maxStreamBlocks ≤ s.metadata.length)
        (invalidInput "stream block count exceeds configured limit")
      return some (parsed, { s with position := position }.count "parallel block index overflow"
        "parallel row count overflow" "parallel stream offset overflow" metadata)
  | .index index => do
      failIf (index ≠ s.metadata) (invalidInput "footer index does not match scanned blocks")
      let (_, _) ← ensureReaderEof data position
      return none
  | .eof => .error (invalidInput "sealed stream footer is missing")

theorem nextDecodeJob_lt {data : List UInt8} {s s' : ScanState} {job : DecodeJob}
    (h : nextDecodeJob data s = .ok (some (job, .ok s'))) :
    s.position < data.length ∧ s.position < s'.position := by
  simp only [nextDecodeJob, bind_ok, Prod.exists] at h
  obtain ⟨record, position, hrecord, h⟩ := h
  cases record with
  | frame frame =>
      have hlt := readNextRecordFrom_lt hrecord (by simp)
      simp only [bind_ok, pure_ok, Option.some.injEq, Prod.mk.injEq, Prod.exists] at h
      obtain ⟨_, _, -, _, -, _, -, _, -, -, hcount⟩ := h
      simp only [ScanState.count, bind_ok, pure_ok] at hcount
      obtain ⟨_, -, _, -, _, -, rfl⟩ := hcount
      exact hlt
  | index index => simp at h
  | eof => cases h

/-- The jobs that the scheduler sends as long as no send is refused, and what it returns then. -/
def scheduleDecodeFrom (data : List UInt8) (s : ScanState) : List DecodeJob × Result UInt64 :=
  match _h : nextDecodeJob data s with
  | .error e => ([], .error e)
  | .ok none => ([], .ok s.nextBlockIndex)
  | .ok (some (job, .error e)) => ([job], .error e)
  | .ok (some (job, .ok s')) =>
      let (jobs, jobCount) := scheduleDecodeFrom data s'
      (job :: jobs, jobCount)
termination_by data.length - s.position
decreasing_by
  have := nextDecodeJob_lt _h
  omega

def scheduleDecodeJobs (data : List UInt8) : List DecodeJob × Result UInt64 :=
  scheduleDecodeFrom data .start

/-! ### The workers -/

/-- A block that has been decoded. -/
structure DecodedBlockJob where
  blockIndex : UInt64
  firstRowIndex : UInt64
  jsonl : String
  deriving DecidableEq, Repr

def decodeJob [SerdeJson] (schema : Schema) (job : DecodeJob) : Result DecodedBlockJob := do
  let jsonl ← decodeBlock schema job
  return ⟨job.blockIndex, job.firstRowIndex, jsonl⟩

/-! ### The collector -/

/-- What the collector has written. -/
structure DecodedOutput where
  output : List UInt8
  nextRowIndex : UInt64
  deriving DecidableEq, Repr

/-- `collect_decode_results`, for the block that comes next. -/
def writeDecoded (s : DecodedOutput) (decoded : DecodedBlockJob) : Result DecodedOutput := do
  failIf (decoded.firstRowIndex ≠ s.nextRowIndex)
    (invalidInput "decoded block first row index is not sequential")
  let nextRowIndex ← okOr (invalidInput "parallel row count overflow")
    (checkedAdd s.nextRowIndex (UInt64.ofNat (countJsonlRows decoded.jsonl)))
  return ⟨s.output ++ asBytes decoded.jsonl, nextRowIndex⟩

def decodedBlocks : Sink DecodedBlockJob DecodedOutput := ⟨DecodedBlockJob.blockIndex, writeDecoded⟩

/-- What is done when all threads have ended. -/
def concludeDecode (jobCount : UInt64) (collected : UInt64 × DecodedOutput) :
    Result (List UInt8) := do
  failIf (collected.1 ≠ jobCount) (invalidInput "parallel block results are incomplete")
  return collected.2.output

/-- Configuration for parallel block decoding. -/
structure ParallelDecodeOptions where
  workerCount : ℕ
  deriving DecidableEq, Repr

def ParallelDecodeOptions.validate (options : ParallelDecodeOptions) : Result Workers :=
  Workers.validate options.workerCount

/-- Decode a CMP2 JSONL stream using multiple worker threads. -/
def decodeJsonlStreamParallel [SerdeJson] (data output : List UInt8) (schema : Schema)
    (options : ParallelDecodeOptions) : Concurrent (Result (List UInt8)) :=
  match options.validate, validateStreamHeader data 0 with
  | .error e, _ => .pure (.error e)
  | .ok _, .error e => .pure (.error e)
  | .ok workers, .ok _ =>
      (pool decodedBlocks workers (scheduleDecodeJobs data) (decodeJob schema) ⟨output, 0⟩
        concludeDecode).program

/-! ### What the scheduler sends -/

/-- A scan stands behind some blocks of a byte string. -/
structure Scanned (data : List UInt8) (s : ScanState) (blocks : List Block) : Prop where
  counts : s.Counts blocks
  position_eq : s.position = streamEnd blocks
  holds : blockLog.Holds data streamHeaderLen blocks
  rows_lt : blockRows blocks < 2 ^ 64

variable {data : List UInt8} {s s' : ScanState} {blocks rest : List Block} {block : Block}

theorem Scanned.start (hheader : At data 0 writeStreamHeader) : Scanned data .start [] :=
  ⟨ScanState.start_counts, rfl, LogFormat.holds_nil (header_le hheader), Nat.two_pow_pos 64⟩

/-- Moving a scan does not change its counters. -/
theorem Scanned.seek (h : Scanned data s blocks) (position : ℕ) :
    ({ s with position := position } : ScanState).Counts blocks :=
  ⟨h.counts.1, h.counts.2, h.counts.3, h.counts.4⟩

/-- A scan that could count a block stands behind it. -/
theorem Scanned.count (h : Scanned data s blocks) (hfit : Fits data)
    (hlog : blockLog.Holds data streamHeaderLen (blocks ++ [block]))
    {indexOverflow rowOverflow offsetOverflow : String}
    (hcount : { s with position := streamEnd (blocks ++ [block]) }.count indexOverflow rowOverflow
      offsetOverflow (block.metadata (streamEnd blocks)) = .ok s') :
    Scanned data s' (blocks ++ [block]) := by
  have hcounts := h.seek (streamEnd (blocks ++ [block]))
  by_cases hrows : blockRows (blocks ++ [block]) < 2 ^ 64
  · obtain ⟨s₁, hs₁, hposition, hnext⟩ :=
      hcounts.count_ok hfit hlog hrows indexOverflow rowOverflow offsetOverflow
    rw [hs₁] at hcount
    cases hcount
    exact ⟨hnext, hposition, hlog, hrows⟩
  · obtain ⟨e, he⟩ := hcounts.count_error hrows indexOverflow rowOverflow offsetOverflow
    rw [he] at hcount
    cases hcount

/-- The scheduler sends the next block of the log. -/
theorem nextDecodeJob_some {job : DecodeJob} {counted : Result ScanState} (hfit : Fits data)
    (h : Scanned data s blocks) (hnext : nextDecodeJob data s = .ok (some (job, counted))) :
    ∃ block, job = block.parsed ∧ blockLog.Holds data streamHeaderLen (blocks ++ [block]) ∧
      ∀ s', counted = .ok s' → Scanned data s' (blocks ++ [block]) := by
  simp only [nextDecodeJob, bind_ok, Prod.exists, h.position_eq] at hnext
  obtain ⟨record, position, hrecord, hnext⟩ := hnext
  cases record with
  | frame frame =>
      simp only [bind_ok, failIf_ok, pure_ok, Option.some.injEq, Prod.mk.injEq,
        Prod.exists] at hnext
      obtain ⟨payload, parsed, hopen, u, hsequence, metadata, hmetadata, -, -, rfl, rfl⟩ := hnext
      obtain ⟨block, rfl, rfl, rfl, hmax, hat, rfl⟩ := openFrame_record hfit hrecord hopen
      have hlog : blockLog.Holds data streamHeaderLen (blocks ++ [block]) :=
        LogFormat.holds_snoc.2 ⟨h.holds, ⟨hmax, h.counts.expectNext_ok.1 hsequence⟩, hat⟩
      obtain ⟨-, -, hfit'⟩ := record_block hfit hlog
      rw [metadataOf_ok h.counts.offset_eq hfit'] at hmetadata
      subst hmetadata
      refine ⟨block, rfl, hlog, fun s' hcount => ?_⟩
      rw [← streamEnd_snoc] at hcount
      exact h.count hfit hlog hcount
  | index index => simp at hnext
  | eof => cases hnext

/-- The scheduler ends at the footer of a stream. -/
theorem nextDecodeJob_none (hfit : Fits data) (hheader : At data 0 writeStreamHeader)
    (h : Scanned data s blocks) (hnext : nextDecodeJob data s = .ok none) :
    Stream data blocks true := by
  simp only [nextDecodeJob, bind_ok, Prod.exists, h.position_eq] at hnext
  obtain ⟨record, position, hrecord, hnext⟩ := hnext
  cases record with
  | frame frame => simp at hnext
  | index index =>
      simp only [bind_ok, failIf_ok, not_not, h.counts.metadata_eq, Prod.exists] at hnext
      obtain ⟨_, rfl, _, _, heof, -⟩ := hnext
      exact (stream_of_record hfit hheader h.holds hrecord (ensureReaderEof_ok.1 heof).1).2 rfl
  | eof => cases hnext

/-- **What the scheduler sends**: the blocks of a log; those of a stream, if it ends well. -/
theorem scheduleDecodeFrom_sent (hfit : Fits data) (hheader : At data 0 writeStreamHeader)
    (h : Scanned data s blocks) :
    ∃ rest, (scheduleDecodeFrom data s).1 = rest.map Block.parsed ∧
      blockLog.Holds data streamHeaderLen (blocks ++ rest) ∧
      ∀ count, (scheduleDecodeFrom data s).2 = .ok count →
        Stream data (blocks ++ rest) true ∧ blockRows (blocks ++ rest) < 2 ^ 64 ∧
          count.toNat = (blocks ++ rest).length := by
  fun_induction scheduleDecodeFrom data s generalizing blocks with
  | case1 s e hnext =>
      exact ⟨[], rfl, by rw [List.append_nil]; exact h.holds, fun _ hcount => by cases hcount⟩
  | case2 s hnext =>
      refine ⟨[], rfl, by rw [List.append_nil]; exact h.holds, fun count hcount => ?_⟩
      cases hcount
      rw [List.append_nil]
      exact ⟨nextDecodeJob_none hfit hheader h hnext, h.rows_lt, h.counts.index_eq⟩
  | case3 s job e hnext =>
      obtain ⟨block, rfl, hlog, -⟩ := nextDecodeJob_some hfit h hnext
      exact ⟨[block], rfl, hlog, fun _ hcount => by cases hcount⟩
  | case4 s job s' hnext jobs jobCount hrest ih =>
      obtain ⟨block, rfl, -, hscanned⟩ := nextDecodeJob_some hfit h hnext
      obtain ⟨rest, hjobs, hlog, hend⟩ := ih (hscanned s' rfl)
      rw [hrest] at hjobs hend
      rw [List.append_assoc, List.singleton_append] at hlog hend
      exact ⟨block :: rest, by rw [List.map_cons, ← hjobs], hlog, hend⟩

/-- The scheduler sends a block of a stream. -/
theorem nextDecodeJob_block (hfit : Fits data) (h : Scanned data s blocks)
    (hlog : blockLog.Holds data streamHeaderLen (blocks ++ [block]))
    (hrows : blockRows (blocks ++ [block]) < 2 ^ 64) (hlen : blocks.length < maxStreamBlocks) :
    ∃ s', nextDecodeJob data s = .ok (some (block.parsed, .ok s')) ∧
      Scanned data s' (blocks ++ [block]) := by
  obtain ⟨hrecord, hopen, hfit'⟩ := record_block hfit hlog
  obtain ⟨-, hacc, -⟩ := LogFormat.holds_snoc.1 hlog
  rw [← h.position_eq] at hrecord
  obtain ⟨s', hcount, hposition, hcounts⟩ := (h.seek (streamEnd (blocks ++ [block]))).count_ok hfit
    hlog hrows "parallel block index overflow" "parallel row count overflow"
    "parallel stream offset overflow"
  have hmetadata : s.metadata.length = blocks.length := by
    rw [h.counts.metadata_eq, length_metadataFrom]
  refine ⟨s', ?_, hcounts, hposition, hlog, hrows⟩
  simp only [nextDecodeJob, bind_ok, hrecord, hopen, Except.ok.injEq, exists_eq_left',
    metadataOf_ok h.counts.offset_eq hfit', exists_eq_left, hcount, failIf_ok, pure_ok, hmetadata,
    Nat.not_le]
  exact ⟨(), h.counts.expectNext_ok.2 hacc.2, (), hlen, trivial⟩

/-- **The scheduler sends the blocks of a stream.** -/
theorem scheduleDecodeFrom_stream (hfit : Fits data) (h : Scanned data s blocks)
    (hstream : Stream data (blocks ++ rest) true) (hrows : blockRows (blocks ++ rest) < 2 ^ 64) :
    ∃ count, scheduleDecodeFrom data s = (rest.map Block.parsed, .ok count) ∧
      count.toNat = (blocks ++ rest).length := by
  induction rest generalizing s blocks with
  | nil =>
      rw [List.append_nil] at hstream ⊢
      have heof : ensureReaderEof data data.length = .ok ((), data.length) :=
        ensureReaderEof_ok.2 ⟨le_refl _, rfl⟩
      have hrecord := hstream.record_end hfit
      rw [← h.position_eq, if_pos rfl] at hrecord
      have hnext : nextDecodeJob data s = .ok none := by
        simp only [nextDecodeJob, hrecord, bind_ok, Except.ok.injEq, exists_eq_left', failIf_ok,
          not_not, h.counts.metadata_eq, heof, exists_const, pure_ok, and_self]
      refine ⟨s.nextBlockIndex, ?_, h.counts.index_eq⟩
      rw [scheduleDecodeFrom]
      split <;> rename_i heq <;> rw [hnext] at heq <;> cases heq
      rfl
  | cons block rest ih =>
      have hlen := hstream.length_le rfl
      have hlog := hstream.holds
      rw [List.append_cons] at hstream hrows hlog ⊢
      have hfirst := hrows
      rw [blockRows_append] at hfirst
      obtain ⟨s', hnext, hs'⟩ := nextDecodeJob_block hfit h hlog.of_append (by omega) (by
        rw [List.length_append, List.length_cons] at hlen
        omega)
      obtain ⟨count, hrest, hcount⟩ := ih hs' hstream hrows
      refine ⟨count, ?_, hcount⟩
      rw [scheduleDecodeFrom]
      split <;> rename_i heq <;> rw [hnext] at heq <;> cases heq
      rw [hrest]
      rfl

/-- The jobs of the blocks of a log are numbered. -/
theorem blockIndex_of_chain {k : ℕ} {job : DecodeJob} (h : blockLog.Chain blocks rest)
    (hget : (rest.map Block.parsed)[k]? = some job) :
    job.blockIndex.toNat = blocks.length + k := by
  induction rest generalizing blocks k with
  | nil => cases hget
  | cons block rest ih =>
      obtain ⟨hacc, hchain⟩ := h
      cases k with
      | zero =>
          cases hget
          exact hacc.2.1
      | succ k =>
          rw [ih hchain hget, List.length_append, List.length_singleton]
          omega

theorem numbered_of_holds [SerdeJson] {schema : Schema} (hfit : Fits data)
    (h : blockLog.Holds data streamHeaderLen blocks) :
    decodedBlocks.Numbered (decodeJob schema) (blocks.map Block.parsed) := by
  have hindex : ∀ {k : ℕ} {job : DecodeJob}, (blocks.map Block.parsed)[k]? = some job →
      job.blockIndex.toNat = k := by
    intro k job hget
    rw [blockIndex_of_chain h.1 hget, List.length_nil, Nat.zero_add]
  refine ⟨?_, ?_, ?_⟩
  · intro k job decoded hget hdecode
    simp only [decodeJob, bind_ok, pure_ok] at hdecode
    obtain ⟨_, -, rfl⟩ := hdecode
    exact hindex hget
  · rw [List.nodup_iff_getElem?_ne_getElem?]
    intro i j hij hj heq
    have hi := hindex (List.getElem?_eq_getElem (lt_trans hij hj))
    have hj' := hindex (heq.symm.trans (List.getElem?_eq_getElem (lt_trans hij hj)))
    omega
  · have hcount := LogFormat.length_le_flat h.1
    have hle := h.le
    rw [Fits, wordSize] at hfit
    rw [List.length_map]
    omega

/-! ### What the collector writes -/

variable [SerdeJson] {schema : Schema}

theorem decodeJob_ok {job : DecodeJob} {decoded : DecodedBlockJob} :
    decodeJob schema job = .ok decoded ↔ ∃ text, decodeBlock schema job = .ok text ∧
      decoded = ⟨job.blockIndex, job.firstRowIndex, text⟩ := by
  simp only [decodeJob, bind_ok, pure_ok, eq_comm (a := decoded)]

/-- The text of a block has as many rows as the block says. -/
theorem countJsonlRows_decodeBlock {text : String}
    (h : decodeBlock schema block.parsed = .ok text) :
    countJsonlRows text = block.rowCount.toNat := by
  simp only [decodeBlock, bind_ok, failIf_ok, not_not, pure_ok] at h
  obtain ⟨_, -, _, hrows, _, -, rfl⟩ := h
  exact hrows

/-- **What the texts are in block order.** -/
theorem foldlM_decodedBlocks (output : List UInt8) {out : DecodedOutput}
    (h : blockLog.Chain [] blocks) :
    (blocks.map Block.parsed).foldlM (decodedBlocks.step (decodeJob schema)) ⟨output, 0⟩ = .ok out ↔
      blockRows blocks < 2 ^ 64 ∧ ∃ texts, DecodesTo schema blocks texts ∧
        out = ⟨output ++ texts.flatMap asBytes, UInt64.ofNat (blockRows blocks)⟩ := by
  induction blocks using List.reverseRecOn generalizing out with
  | nil =>
      rw [List.map_nil, List.foldlM_nil, pure_ok]
      constructor
      · rintro rfl
        exact ⟨Nat.two_pow_pos 64, [], .nil, by rw [List.flatMap_nil, List.append_nil]; rfl⟩
      · rintro ⟨-, texts, htexts, rfl⟩
        cases htexts
        rw [List.flatMap_nil, List.append_nil]
        rfl
  | append_singleton blocks block ih =>
      obtain ⟨hchain, hacc⟩ := LogFormat.chain_snoc.1 h
      have hrow (text : String) (htext : decodeBlock schema block.parsed = .ok text) :
          (UInt64.ofNat (countJsonlRows text)).toNat = block.rowCount.toNat := by
        rw [countJsonlRows_decodeBlock htext, UInt64.ofNat_toNat]
      have hfirst (hlt : blockRows blocks < 2 ^ 64) :
          block.firstRowIndex = UInt64.ofNat (blockRows blocks) := by
        rw [← hacc.2.2, UInt64.ofNat_toNat]
      simp only [List.map_append, List.map_singleton, List.foldlM_append, bind_ok, ih hchain,
        List.foldlM_cons, List.foldlM_nil, pure_ok, exists_eq_right, Sink.step_ok, decodeJob_ok]
      rw [blockRows_append, blockRows_singleton]
      constructor
      · rintro ⟨_, ⟨hlt, texts, htexts, rfl⟩, _, ⟨text, htext, rfl⟩, hwrite⟩
        simp only [decodedBlocks, writeDecoded, bind_ok, failIf_ok, okOr_ok, checkedAdd_eq_some,
          pure_ok] at hwrite
        obtain ⟨_, -, next, hnext, rfl⟩ := hwrite
        rw [hrow text htext, toNat_ofNat hlt] at hnext
        refine ⟨hnext ▸ next.toNat_lt, texts ++ [text],
          List.rel_append htexts (.cons htext .nil), ?_⟩
        rw [← hnext, UInt64.ofNat_toNat, List.flatMap_append, List.flatMap_singleton,
          List.append_assoc]
      · rintro ⟨hlt, texts', htexts', rfl⟩
        obtain ⟨texts, last, htexts, hlast, rfl⟩ := decodesTo_append.1 htexts'
        obtain ⟨text, _, htext, hnil, rfl⟩ := List.forall₂_cons_left_iff.1 hlast
        cases hnil
        have hlt' : blockRows blocks < 2 ^ 64 := by omega
        refine ⟨_, ⟨hlt', texts, htexts, rfl⟩, _, ⟨text, htext, rfl⟩, ?_⟩
        simp only [decodedBlocks, writeDecoded, bind_ok, failIf_ok, okOr_ok, checkedAdd_eq_some,
          pure_ok]
        refine ⟨(), not_not.2 (hfirst hlt'), UInt64.ofNat (blockRows blocks + block.rowCount.toNat),
          ?_, ?_⟩
        · rw [toNat_ofNat hlt, hrow text htext, toNat_ofNat hlt']
        · rw [List.flatMap_append, List.flatMap_singleton, List.append_assoc]

/-! ### Every run returns what the sequential reader returns -/

/-- The two decoders accept the same streams. -/
theorem decodeJsonlStream_ok_iff {output : List UInt8} {count : UInt64} {out : DecodedOutput}
    (hfit : Fits data) (hheader : At data 0 writeStreamHeader)
    (hcount : (scheduleDecodeJobs data).2 = .ok count)
    (hfold : (scheduleDecodeJobs data).1.foldlM (decodedBlocks.step (decodeJob schema))
      ⟨output, 0⟩ = .ok out) :
    ∃ text, decodeJsonlStream data schema = .ok text ∧ out.output = output ++ text := by
  obtain ⟨blocks, hjobs, hlog, hend⟩ := scheduleDecodeFrom_sent hfit hheader (.start hheader)
  rw [List.nil_append] at hlog hend
  rw [scheduleDecodeJobs, hjobs] at hfold
  obtain ⟨hrows, texts, htexts, rfl⟩ := (foldlM_decodedBlocks output hlog.1).1 hfold
  obtain ⟨hstream, -, -⟩ := hend count hcount
  exact ⟨_, (decodeJsonlStream_ok hfit).2 ⟨blocks, texts, hstream, hrows, htexts, rfl⟩, rfl⟩

/-- **The parallel decoder agrees with the sequential one**, under every schedule. -/
theorem always_decoded {options : ParallelDecodeOptions} {workers : Workers} (hfit : Fits data)
    (hvalid : options.validate = .ok workers) :
    (decodeJsonlStreamParallel data [] schema options).Always fun r =>
      ∀ text, r = .ok text ↔ decodeJsonlStream data schema = .ok text := by
  rw [decodeJsonlStreamParallel, hvalid]
  cases hheader : validateStreamHeader data 0 with
  | error e =>
      refine Concurrent.always_pure.2 fun text => ?_
      rw [decodeJsonlStream, JsonlBlockReader.newWithMode, hheader]
      exact Iff.rfl
  | ok position =>
      have hstart : At data 0 writeStreamHeader :=
        ((validateStreamHeader_ok hfit).1 hheader).1
      obtain ⟨blocks, hjobs, hlog, hend⟩ := scheduleDecodeFrom_sent hfit hstart (.start hstart)
      rw [List.nil_append] at hlog hend
      have hnumbered : decodedBlocks.Numbered (decodeJob schema) (scheduleDecodeJobs data).1 := by
        rw [scheduleDecodeJobs, hjobs]
        exact numbered_of_holds hfit hlog
      cases hdecode : decodeJsonlStream data schema with
      | error e =>
          refine (always_returned hnumbered).mono fun r hr text => ?_
          rw [iff_false_right (by simp)]
          rintro rfl
          obtain ⟨count, out, hcount, hfold, -⟩ := hr.of_ok
          obtain ⟨text', htext', -⟩ := decodeJsonlStream_ok_iff hfit hstart hcount hfold
          rw [hdecode] at htext'
          cases htext'
      | ok text =>
          obtain ⟨blocks', texts, hstream, hrows, htexts, rfl⟩ :=
            (decodeJsonlStream_ok hfit).1 hdecode
          obtain ⟨count, hsame, hcount⟩ : ∃ count,
              scheduleDecodeJobs data = (blocks'.map Block.parsed, .ok count) ∧
                count.toNat = blocks'.length :=
            scheduleDecodeFrom_stream hfit (.start hstart) hstream hrows
          have hfold := (foldlM_decodedBlocks [] hstream.chain).2 ⟨hrows, texts, htexts, rfl⟩
          have hconclude : concludeDecode count (UInt64.ofNat (scheduleDecodeJobs data).1.length,
              ⟨[] ++ texts.flatMap asBytes, UInt64.ofNat (blockRows blocks')⟩) =
                .ok (texts.flatMap asBytes) := by
            rw [hsame, List.length_map, ← hcount, UInt64.ofNat_toNat, concludeDecode,
              failIf_of_not (not_not.2 rfl)]
            rfl
          refine (always_ok hnumbered (by rw [hsame]) (by rw [hsame]; exact hfold)
            hconclude).mono ?_
          rintro r rfl text
          exact Iff.rfl

end

end CompactCore.Parallel
