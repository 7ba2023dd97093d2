/-
**The decoder that writes to an async sink.**

This decoder reads as many blocks as it has workers, decodes them, one thread for each, and awaits
the sink before it reads on.  It waits for its threads in the order in which it started them, so
their order of execution cannot be told from what it returns.  It decodes what the sequential reader
decodes, for every number of workers.

Main definitions:

* `CompactCore.Parallel.readBatch`, `CompactCore.Parallel.decodeBatch` — a batch;
* `CompactCore.Parallel.decodeJsonlStreamParallelAsyncWriter` — the decoder.

Main results:

* `CompactCore.Parallel.readBatch_ok`, `CompactCore.Parallel.readBatch_stream` — the blocks of a
  batch;
* `CompactCore.Parallel.decodeBatch_ok` — the texts of a batch;
* `CompactCore.Parallel.decodeJsonlStreamParallelAsyncWriter_ok` — **which streams decode, and to
  what**;
* `CompactCore.Parallel.decoders_agree` — **the three decoders agree**.
-/

import CompactCore.Parallel.Decode
import CompactCore.Reference
import CompactCore.Streaming.Writer

set_option relaxedAutoImplicit false
set_option autoImplicit false

namespace CompactCore.Parallel

open Wire CompactError Io Streaming

section

variable [Crc32Fast]

/-! ### Batches -/

/-- The jobs of a batch, the scan behind them, and whether the footer has been read. -/
structure Batch where
  jobs : List DecodeJob
  scan : ScanState
  finished : Bool
  deriving DecidableEq, Repr

/-- The inner loop: read blocks as long as there is room in the batch. -/
def readBatch (data : List UInt8) : ℕ → ScanState → Result Batch
  | 0, s => .ok ⟨[], s, false⟩
  | room + 1, s => do
      let (record, position) ← readNextRecordFrom data s.position
      match record with
      | .index index => do
          failIf (index ≠ s.metadata) (invalidInput "footer index does not match scanned blocks")
          let (_, position) ← ensureReaderEof data position
          return ⟨[], { s with position := position }, true⟩
      | .eof => .error (invalidInput "sealed stream footer is missing")
      | .frame frame => do
          let (payload, parsed) ← openFrame frame
          failIf (parsed.blockIndex ≠ s.nextBlockIndex ∨ parsed.firstRowIndex ≠ s.nextRowIndex)
            (invalidInput "stream block metadata is not sequential")
          failIf (maxStreamBlocks ≤ s.metadata.length)
            (invalidInput "stream block count exceeds configured limit")
          let metadata ← metadataOf s.nextOffset frame.length payload parsed
          let s ← { s with position := position }.count "parallel block index overflow"
            "parallel row count overflow" "parallel stream offset overflow" metadata
          let batch ← readBatch data room s
          return { batch with jobs := parsed :: batch.jobs }

/-- Reading a batch goes forward. -/
theorem readBatch_forward {data : List UInt8} {room : ℕ} {s : ScanState} {batch : Batch}
    (h : readBatch data room s = .ok batch) : s.position ≤ batch.scan.position ∧
      (0 < room → batch.finished = false →
        s.position < data.length ∧ s.position < batch.scan.position) := by
  induction room generalizing s batch with
  | zero =>
      cases h
      exact ⟨le_refl _, fun hpos => absurd hpos (Nat.lt_irrefl 0)⟩
  | succ room ih =>
      simp only [readBatch, bind_ok, Prod.exists] at h
      obtain ⟨record, position, hrecord, h⟩ := h
      cases record with
      | eof => cases h
      | index index =>
          have hlt := readNextRecordFrom_lt hrecord (by simp)
          simp only [bind_ok, pure_ok, Prod.exists] at h
          obtain ⟨_, -, _, _, heof, rfl⟩ := h
          obtain ⟨-, rfl⟩ := ensureReaderEof_ok.1 heof
          exact ⟨hlt.2.le, fun _ hfinished => by cases hfinished⟩
      | frame frame =>
          have hlt := readNextRecordFrom_lt hrecord (by simp)
          simp only [ScanState.count, bind_ok, pure_ok, Prod.exists] at h
          obtain ⟨_, _, -, _, -, _, -, _, -, _, ⟨_, -, _, -, _, -, rfl⟩, batch, hbatch, rfl⟩ := h
          have hle := (ih hbatch).1
          dsimp only at hle ⊢
          exact ⟨by omega, fun _ _ => ⟨hlt.1, by omega⟩⟩

variable [SerdeJson]

/-- Decode the jobs of a batch, one thread for each.  The threads are waited for in the order of the
jobs, and the first error in this order counts. -/
def decodeBatch (schema : Schema) (jobs : List DecodeJob) : Result (List DecodedBlockJob) := do
  let decoded ← jobs.mapM (decodeJob schema)
  return decoded.mergeSort fun a b => a.blockIndex ≤ b.blockIndex

/-! ### The decoder -/

structure AsyncState where
  scan : ScanState
  finished : Bool
  output : List UInt8
  deriving DecidableEq, Repr

/-- One batch is read, decoded and written. -/
def asyncStep (data : List UInt8) (schema : Schema) (workers : Workers) (s : AsyncState) :
    Result (Option AsyncState) :=
  if s.finished then .ok none
  else do
    let batch ← readBatch data workers.count s.scan
    let decoded ← decodeBatch schema batch.jobs
    return some ⟨batch.scan, batch.finished,
      decoded.foldl (fun output block => output ++ asBytes block.jsonl) s.output⟩

/-- What is left to do: bytes, and the batch that finishes. -/
def AsyncState.measure (data : List UInt8) (s : AsyncState) : ℕ :=
  data.length - s.scan.position + if s.finished then 0 else 1

def asyncLoop (data : List UInt8) (schema : Schema) (workers : Workers) :
    Loop CompactError AsyncState where
  step := asyncStep data schema workers
  measure := AsyncState.measure data
  decreases {s s'} h := by
    unfold asyncStep at h
    split at h
    · cases h
    · rename_i hfinished
      simp only [bind_ok, pure_ok, Option.some.injEq] at h
      obtain ⟨batch, hbatch, _, -, rfl⟩ := h
      obtain ⟨hle, hlt⟩ := readBatch_forward hbatch
      simp only [AsyncState.measure]
      rw [if_neg hfinished]
      cases hend : batch.finished with
      | true =>
          simp only [if_true]
          omega
      | false =>
          have := hlt workers.pos hend
          simp only [Bool.false_eq_true, if_false]
          omega

/-- Decode a CMP2 JSONL stream and write the ordered result to an async sink. -/
def decodeJsonlStreamParallelAsyncWriter (data output : List UInt8) (schema : Schema)
    (options : ParallelDecodeOptions) : Result (List UInt8) := do
  let workers ← options.validate
  let (_, _) ← validateStreamHeader data 0
  let s ← (asyncLoop data schema workers).run ⟨.start, false, output⟩
  return s.output

/-! ### The blocks of a batch -/

variable {data : List UInt8} {s s' : ScanState} {blocks rest : List Block} {block : Block}

omit [SerdeJson] in
/-- **The blocks of a batch** are the next ones of the log; the last batch ends with the stream. -/
theorem readBatch_ok {room : ℕ} {batch : Batch} (hfit : Fits data)
    (hheader : At data 0 writeStreamHeader) (h : Scanned data s blocks)
    (hbatch : readBatch data room s = .ok batch) :
    ∃ rest, batch.jobs = rest.map Block.parsed ∧ blockLog.Chain blocks rest ∧
      (batch.finished = false → Scanned data batch.scan (blocks ++ rest)) ∧
      (batch.finished = true → Stream data (blocks ++ rest) true ∧
        blockRows (blocks ++ rest) < 2 ^ 64) := by
  induction room generalizing s blocks batch with
  | zero =>
      cases hbatch
      exact ⟨[], rfl, trivial, fun _ => by rwa [List.append_nil], fun hend => by cases hend⟩
  | succ room ih =>
      simp only [readBatch, bind_ok, Prod.exists, h.position_eq] at hbatch
      obtain ⟨record, position, hrecord, hbatch⟩ := hbatch
      cases record with
      | eof => cases hbatch
      | index index =>
          simp only [bind_ok, failIf_ok, not_not, h.counts.metadata_eq, pure_ok,
            Prod.exists] at hbatch
          obtain ⟨_, rfl, _, _, heof, rfl⟩ := hbatch
          have hstream := (stream_of_record hfit hheader h.holds hrecord
            (ensureReaderEof_ok.1 heof).1).2 rfl
          refine ⟨[], rfl, trivial, (fun hend => by cases hend), fun _ => ?_⟩
          rw [List.append_nil]
          exact ⟨hstream, h.rows_lt⟩
      | frame frame =>
          simp only [bind_ok, failIf_ok, not_or, not_not, pure_ok, Prod.exists] at hbatch
          obtain ⟨payload, parsed, hopen, _, hsequence, _, -, metadata, hmetadata, s₁, hcount,
            batch, hbatch, rfl⟩ := hbatch
          obtain ⟨block, rfl, rfl, rfl, hmax, hat, rfl⟩ := openFrame_record hfit hrecord hopen
          have hnext : s.expectNext block.parsed = .ok () := by
            simp only [ScanState.expectNext, bind_ok, failIf_ok, not_not]
            exact ⟨(), hsequence⟩
          have hacc := h.counts.expectNext_ok.1 hnext
          have hlog : blockLog.Holds data streamHeaderLen (blocks ++ [block]) :=
            LogFormat.holds_snoc.2 ⟨h.holds, ⟨hmax, hacc⟩, hat⟩
          obtain ⟨-, -, hfit'⟩ := record_block hfit hlog
          rw [metadataOf_ok h.counts.offset_eq hfit'] at hmetadata
          subst hmetadata
          rw [← streamEnd_snoc] at hcount
          obtain ⟨rest, hjobs, hchain, hopen, hend⟩ := ih (h.count hfit hlog hcount) hbatch
          rw [List.append_assoc, List.singleton_append] at hopen hend
          exact ⟨block :: rest, by rw [List.map_cons, ← hjobs], ⟨⟨hmax, hacc⟩, hchain⟩, hopen, hend⟩

omit [SerdeJson] in
/-- **A stream is read batch by batch.** -/
theorem readBatch_stream (room : ℕ) (hfit : Fits data) (h : Scanned data s blocks)
    (hstream : Stream data (blocks ++ rest) true) (hrows : blockRows (blocks ++ rest) < 2 ^ 64) :
    ∃ batch now later, readBatch data room s = .ok batch ∧ rest = now ++ later ∧
      batch.jobs = now.map Block.parsed ∧
      (batch.finished = false → Scanned data batch.scan (blocks ++ now)) ∧
      (batch.finished = true → later = []) := by
  induction room generalizing s blocks rest with
  | zero =>
      refine ⟨_, [], rest, rfl, rfl, rfl, fun _ => ?_, fun hend => by cases hend⟩
      rwa [List.append_nil]
  | succ room ih =>
      cases rest with
      | nil =>
          rw [List.append_nil] at hstream
          have heof : ensureReaderEof data data.length = .ok ((), data.length) :=
            ensureReaderEof_ok.2 ⟨le_refl _, rfl⟩
          have hrecord := hstream.record_end hfit
          rw [← h.position_eq, if_pos rfl] at hrecord
          refine ⟨⟨[], { s with position := data.length }, true⟩, [], [], ?_, rfl, rfl,
            (fun hend => by cases hend), fun _ => rfl⟩
          simp only [readBatch, hrecord, bind_ok, Except.ok.injEq, exists_eq_left', failIf_ok,
            not_not, h.counts.metadata_eq, heof, exists_const, pure_ok, and_self]
      | cons block rest =>
          have hlen := hstream.length_le rfl
          have hlog := hstream.holds
          rw [List.append_cons] at hstream hrows hlog
          have hfirst := hrows
          rw [blockRows_append] at hfirst
          have hlog' := hlog.of_append
          obtain ⟨hrecord, hopen, hfit'⟩ := record_block hfit hlog'
          obtain ⟨-, hacc, -⟩ := LogFormat.holds_snoc.1 hlog'
          rw [← h.position_eq] at hrecord
          obtain ⟨s', hcount, hposition, hcounts⟩ :=
            (h.seek (streamEnd (blocks ++ [block]))).count_ok
            hfit hlog' (by omega) "parallel block index overflow" "parallel row count overflow"
            "parallel stream offset overflow"
          obtain ⟨batch, now, later, hbatch, rfl, hjobs, hnext, hend⟩ :=
            ih ⟨hcounts, hposition, hlog', by omega⟩ hstream hrows
          have hsequence : s.expectNext block.parsed = .ok () := h.counts.expectNext_ok.2 hacc.2
          simp only [ScanState.expectNext, bind_ok, failIf_ok, not_not] at hsequence
          obtain ⟨-, hindex, hrow⟩ := hsequence
          have hmetadata : s.metadata.length < maxStreamBlocks := by
            rw [h.counts.metadata_eq, length_metadataFrom]
            rw [List.length_append, List.length_cons] at hlen
            omega
          refine ⟨{ batch with jobs := block.parsed :: batch.jobs }, block :: now, later, ?_, rfl,
            by rw [List.map_cons, hjobs], ?_, hend⟩
          · simp only [readBatch, bind_ok, hrecord, hopen, Except.ok.injEq, exists_eq_left',
              metadataOf_ok h.counts.offset_eq hfit', exists_eq_left, hcount, failIf_ok, hbatch,
              pure_ok, not_or, not_not, Nat.not_le]
            exact ⟨(), ⟨hindex, hrow⟩, (), hmetadata, trivial⟩
          · rw [List.append_assoc, List.singleton_append] at hnext
            exact hnext

/-! ### The texts of a batch -/

variable {schema : Schema}

/-- **The texts of a batch** are in the order of the blocks. -/
theorem decodeBatch_ok {decoded : List DecodedBlockJob} (h : blockLog.Chain blocks rest) :
    decodeBatch schema (rest.map Block.parsed) = .ok decoded ↔
      List.Forall₂ (fun block decoded => decodeJob schema block.parsed = .ok decoded) rest
        decoded := by
  have hsorted : ∀ decoded, List.Forall₂ (fun block decoded =>
      decodeJob schema (Block.parsed block) = .ok decoded) rest decoded →
      decoded.mergeSort (fun a b => a.blockIndex ≤ b.blockIndex) = decoded := by
    intro decoded hdecoded
    have hlen := hdecoded.length_eq
    have hindex : ∀ {k : ℕ} (hk : k < decoded.length),
        (decoded[k]).blockIndex.toNat = blocks.length + k := by
      intro k hk
      have hlt : k < rest.length := by omega
      obtain ⟨text, -, hjob⟩ := decodeJob_ok.1 ((List.forall₂_iff_get.1 hdecoded).2 k hlt hk)
      have hget : (rest.map Block.parsed)[k]? = some rest[k].parsed := by
        rw [List.getElem?_map, List.getElem?_eq_getElem hlt]
        rfl
      rw [← blockIndex_of_chain h hget]
      exact congrArg (fun job : DecodedBlockJob => job.blockIndex.toNat) hjob
    refine List.mergeSort_of_pairwise (List.pairwise_iff_getElem.2 fun i j hi hj hij => ?_)
    rw [decide_eq_true_eq, UInt64.le_iff_toNat_le, hindex hi, hindex hj]
    omega
  simp only [decodeBatch, bind_ok, mapM_ok, List.forall₂_map_left_iff, pure_ok]
  constructor
  · rintro ⟨decoded, hdecoded, rfl⟩
    rwa [hsorted decoded hdecoded]
  · intro hdecoded
    exact ⟨decoded, hdecoded, hsorted decoded hdecoded⟩

/-- What is written of a batch. -/
theorem foldl_decoded {decoded : List DecodedBlockJob} (output : List UInt8)
    (h : List.Forall₂
      (fun block decoded => decodeJob schema (Block.parsed block) = .ok decoded) rest
      decoded) :
    ∃ texts, DecodesTo schema rest texts ∧
      decoded.foldl (fun output block => output ++ asBytes block.jsonl) output =
        output ++ texts.flatMap asBytes := by
  induction h generalizing output with
  | nil => exact ⟨[], .nil, by simp⟩
  | @cons block decoded rest decodeds hdecode _ ih =>
      obtain ⟨text, htext, rfl⟩ := decodeJob_ok.1 hdecode
      obtain ⟨texts, htexts, hfold⟩ := ih (output ++ asBytes text)
      refine ⟨text :: texts, .cons htext htexts, ?_⟩
      rw [List.foldl_cons, hfold, List.flatMap_cons, List.append_assoc]

/-! ### What the decoder accepts -/

/-- The decoder stands behind some blocks, and has written their texts. -/
structure AsyncState.After (data : List UInt8) (schema : Schema) (output : List UInt8)
    (s : AsyncState) (blocks : List Block) : Prop where
  output_eq : ∃ texts, DecodesTo schema blocks texts ∧ s.output = output ++ texts.flatMap asBytes
  scanned : s.finished = false → Scanned data s.scan blocks

theorem asyncStart_after {output : List UInt8} (hheader : At data 0 writeStreamHeader) :
    (⟨.start, false, output⟩ : AsyncState).After data schema output [] :=
  ⟨⟨[], .nil, by simp⟩, fun _ => .start hheader⟩

/-- Writing a batch. -/
theorem AsyncState.After.write {output : List UInt8} {s : AsyncState} {batch : Batch}
    {decoded : List DecodedBlockJob} (h : s.After data schema output blocks)
    (hdecoded : List.Forall₂ (fun block decoded => decodeJob schema (Block.parsed block) =
      .ok decoded) rest decoded)
    (hscanned : batch.finished = false → Scanned data batch.scan (blocks ++ rest)) :
    AsyncState.After data schema output ⟨batch.scan, batch.finished,
      decoded.foldl (fun output block => output ++ asBytes block.jsonl) s.output⟩
      (blocks ++ rest) := by
  obtain ⟨texts, htexts, hout⟩ := h.output_eq
  obtain ⟨more, hmore, hfold⟩ := foldl_decoded s.output hdecoded
  refine ⟨⟨texts ++ more, List.rel_append htexts hmore, ?_⟩, hscanned⟩
  rw [hfold, hout, List.flatMap_append, List.append_assoc]

/-- What the decoder has read and written is the beginning of a stream, and a stream in the end. -/
theorem asyncStep_after {output : List UInt8} {workers : Workers} {s s' : AsyncState}
    (hfit : Fits data) (hheader : At data 0 writeStreamHeader)
    (h : s.After data schema output blocks)
    (hstep : asyncStep data schema workers s = .ok (some s')) :
    ∃ rest, s'.After data schema output (blocks ++ rest) ∧
      (s'.finished = true → Stream data (blocks ++ rest) true ∧
        blockRows (blocks ++ rest) < 2 ^ 64) := by
  unfold asyncStep at hstep
  split at hstep
  · cases hstep
  · rename_i hopen
    simp only [bind_ok, pure_ok, Option.some.injEq] at hstep
    obtain ⟨batch, hbatch, decoded, hdecode, rfl⟩ := hstep
    obtain ⟨rest, hjobs, hchain, hscanned, hend⟩ := readBatch_ok hfit hheader
      (h.scanned (Bool.eq_false_iff.2 hopen)) hbatch
    rw [hjobs] at hdecode
    exact ⟨rest, h.write ((decodeBatch_ok hchain).1 hdecode) hscanned, hend⟩

/-- Before the end of a stream that decodes, a batch can be read, decoded and written. -/
theorem exists_asyncStep {output : List UInt8} (workers : Workers) {s : AsyncState}
    {texts : List String} (hfit : Fits data) (h : s.After data schema output blocks)
    (hopen : s.finished = false) (hstream : Stream data (blocks ++ rest) true)
    (hrows : blockRows (blocks ++ rest) < 2 ^ 64) (htexts : DecodesTo schema rest texts) :
    ∃ s' now later, asyncStep data schema workers s = .ok (some s') ∧ rest = now ++ later ∧
      s'.After data schema output (blocks ++ now) ∧ (s'.finished = true → later = []) := by
  obtain ⟨batch, now, later, hbatch, rfl, hjobs, hscanned, hend⟩ :=
    readBatch_stream workers.count hfit (h.scanned hopen) hstream hrows
  obtain ⟨first, _, hfirst, -, rfl⟩ := decodesTo_append.1 htexts
  have hchain : blockLog.Chain blocks now := by
    have hall := hstream.chain
    rw [LogFormat.chain_append, LogFormat.chain_append, List.nil_append] at hall
    exact hall.2.1
  obtain ⟨decoded, hdecoded⟩ : ∃ decoded, List.Forall₂ (fun block decoded =>
      decodeJob schema (Block.parsed block) = .ok decoded) now decoded := by
    refine ⟨(now.zip first).map fun p => ⟨p.1.blockIndex, p.1.firstRowIndex, p.2⟩, ?_⟩
    clear hjobs hscanned hstream hrows hchain hbatch htexts
    induction hfirst with
    | nil => exact .nil
    | cons htext _ ih => exact .cons (decodeJob_ok.2 ⟨_, htext, rfl⟩) ih
  refine ⟨_, now, later, ?_, rfl, h.write hdecoded hscanned, hend⟩
  rw [asyncStep, if_neg (by simp [hopen]), hbatch]
  have hdecode := (decodeBatch_ok hchain).2 hdecoded
  rw [← hjobs] at hdecode
  simp only [bind, Except.bind, hdecode]
  rfl

/-- **Which streams decode, and to what.** -/
theorem decodeJsonlStreamParallelAsyncWriter_ok {output text : List UInt8}
    {options : ParallelDecodeOptions} {workers : Workers} (hfit : Fits data)
    (hvalid : options.validate = .ok workers) :
    decodeJsonlStreamParallelAsyncWriter data output schema options = .ok text ↔
      ∃ blocks texts, Stream data blocks true ∧ blockRows blocks < 2 ^ 64 ∧
        DecodesTo schema blocks texts ∧ text = output ++ texts.flatMap asBytes := by
  simp only [decodeJsonlStreamParallelAsyncWriter, hvalid, bind_ok, Except.ok.injEq,
    exists_eq_left', Prod.exists, validateStreamHeader_ok hfit, pure_ok]
  constructor
  · rintro ⟨_, _, ⟨hheader, -⟩, final, hrun, rfl⟩
    obtain ⟨hrounds, hstop⟩ := Loop.run_ok.1 hrun
    have hinv := hrounds.invariant (P := fun s : AsyncState => ∃ blocks,
        s.After data schema output blocks ∧ (s.finished = true → Stream data blocks true ∧
          blockRows blocks < 2 ^ 64)) (by
      rintro a b ⟨blocks, h, -⟩ hstep
      obtain ⟨rest, hnext⟩ := asyncStep_after hfit hheader h hstep
      exact ⟨_, hnext⟩) ⟨[], asyncStart_after hheader, fun hend => by cases hend⟩
    obtain ⟨blocks, h, hend⟩ := hinv
    cases hfinished : final.finished with
    | false =>
        change asyncStep data schema workers final = .ok none at hstop
        simp only [asyncStep, hfinished, Bool.false_eq_true, if_false, bind_ok, pure_ok,
          reduceCtorEq, and_false, exists_false] at hstop
    | true =>
        obtain ⟨hstream, hrows⟩ := hend hfinished
        obtain ⟨texts, htexts, hout⟩ := h.output_eq
        exact ⟨blocks, texts, hstream, hrows, htexts, hout⟩
  · rintro ⟨blocks, texts, hstream, hrows, htexts, rfl⟩
    have hheader := hstream.header
    obtain ⟨final, hrounds, hend⟩ := (asyncLoop data schema workers).exists_end
      ⟨.start, false, output⟩
    have hnext : ∀ s done rest, blocks = done ++ rest → s.After data schema output done →
        s.finished = false → ∃ s' done' rest', asyncStep data schema workers s = .ok (some s') ∧
          blocks = done' ++ rest' ∧ s'.After data schema output done' ∧
            (s'.finished = true → rest' = []) := by
      rintro s done rest rfl h hopen
      obtain ⟨_, last, -, hlast, rfl⟩ := decodesTo_append.1 htexts
      obtain ⟨s', now, later, hstep, rfl, hs', hlater⟩ :=
        exists_asyncStep workers hfit h hopen hstream hrows hlast
      exact ⟨s', done ++ now, later, hstep, (List.append_assoc ..).symm, hs', hlater⟩
    have hinv := hrounds.invariant (P := fun s : AsyncState => ∃ done rest, blocks = done ++ rest ∧
        s.After data schema output done ∧ (s.finished = true → rest = [])) (by
      rintro a b ⟨done, rest, hsplit, h, -⟩ hstep
      cases hopen : a.finished with
      | true =>
          change asyncStep data schema workers a = .ok (some b) at hstep
          rw [asyncStep, if_pos hopen] at hstep
          cases hstep
      | false =>
          obtain ⟨s', done', rest', hstep', hrest⟩ := hnext a done rest hsplit h hopen
          change asyncStep data schema workers a = .ok (some b) at hstep
          rw [hstep'] at hstep
          cases hstep
          exact ⟨done', rest', hrest⟩)
      ⟨[], blocks, rfl, asyncStart_after hheader, fun hend => by cases hend⟩
    obtain ⟨done, rest, hsplit, h, hrest⟩ := hinv
    cases hfinished : final.finished with
    | false =>
        obtain ⟨s', _, _, hstep, -⟩ := hnext final done rest hsplit h hfinished
        change asyncStep data schema workers final = .ok none ∨
          ∃ e, asyncStep data schema workers final = .error e at hend
        rw [hstep] at hend
        rcases hend with hend | ⟨_, hend⟩ <;> cases hend
    | true =>
        rw [hrest hfinished, List.append_nil] at hsplit
        subst hsplit
        obtain ⟨texts', htexts', hout⟩ := h.output_eq
        refine ⟨(), _, ⟨hheader, rfl⟩, final, ?_, ?_⟩
        · rw [hrounds.run_eq]
          refine Loop.run_of_none ?_
          show asyncStep data schema workers final = .ok none
          rw [asyncStep, if_pos hfinished]
        · rw [hout, htexts.unique htexts']

/-! ### The three decoders -/

/-- **The three decoders agree on every input**, for every number of workers and in every order of
the threads. -/
theorem decoders_agree {options : ParallelDecodeOptions} (hfit : Fits data)
    (hpos : 0 < options.workerCount) (hle : options.workerCount ≤ maxParallelWorkers) :
    ((decodeJsonlStreamParallel data [] schema options).Always fun r =>
        ∀ text, r = .ok text ↔ decodeJsonlStream data schema = .ok text) ∧
      ∀ text, decodeJsonlStreamParallelAsyncWriter data [] schema options = .ok text ↔
        decodeJsonlStream data schema = .ok text := by
  have hvalid : options.validate = .ok ⟨options.workerCount, hpos, hle⟩ := Workers.validate_ok.2 rfl
  refine ⟨always_decoded hfit hvalid, fun text => ?_⟩
  rw [decodeJsonlStreamParallelAsyncWriter_ok hfit hvalid, decodeJsonlStream_ok hfit]
  rfl

end

section

open scoped CompactCore.Reference

set_option maxRecDepth 8192 in
/-- A stream of two blocks, and two workers. -/
theorem decoders_agree_two_blocks : ∃ data text,
    decodeJsonlStream data (Reference.idSchema .deltaVarintU64) = .ok text ∧
    ((decodeJsonlStreamParallel data [] (Reference.idSchema .deltaVarintU64) ⟨2⟩).Always fun r =>
        ∀ text, r = .ok text ↔
          decodeJsonlStream data (Reference.idSchema .deltaVarintU64) = .ok text) ∧
      ∀ text,
        decodeJsonlStreamParallelAsyncWriter data [] (Reference.idSchema .deltaVarintU64) ⟨2⟩ =
        .ok text ↔ decodeJsonlStream data (Reference.idSchema .deltaVarintU64) = .ok text := by
  have hrun : ∃ data, encodeJsonlStream (.cursor (asBytes Reference.idLines)) []
      (Reference.idSchema .deltaVarintU64) ⟨1, 64⟩ = .ok data ∧ Fits data ∧
        (decodeJsonlStream data (Reference.idSchema .deltaVarintU64)).toOption.isSome = true :=
    Reference.exists_ok _ (by decide +kernel)
  obtain ⟨data, -, hfit, hdecode⟩ := hrun
  obtain ⟨text, htext⟩ := Option.isSome_iff_exists.1 hdecode
  rw [toOption_eq_some] at htext
  exact ⟨data, text, htext, decoders_agree hfit (by decide) (by decide)⟩

end

end CompactCore.Parallel
