/-
**Reading `CMP2` streams.**

The block reader decodes the blocks of a stream one after the other and accepts the end of the
stream only behind a footer that repeats what it has read.

Main definitions:

* `CompactCore.Streaming.JsonlBlockReader.nextBlock`, `CompactCore.Streaming.decodeJsonlStream` —
  the reader;
* `CompactCore.Streaming.DecodesTo` — the texts that blocks decode to.

Main results:

* `CompactCore.Streaming.decodeLoop_follows` — the reader follows the log of blocks;
* `CompactCore.Streaming.decodeJsonlStream_ok` — **which streams decode, and to what**.
-/

import CompactCore.Io.ColumnBlock
import CompactCore.Streaming.Scan
import CompactCore.Wire.Scan

set_option relaxedAutoImplicit false
set_option autoImplicit false

namespace CompactCore.Streaming

open Wire CompactError Io

/-! ### The block reader -/

/-- `jsonl.lines().filter(|line| !line.trim().is_empty()).count()`. -/
def countJsonlRows (jsonl : String) : ℕ := ((lines jsonl).filter fun line => !isBlank line).length

structure DecodedBlock where
  metadata : BlockMetadata
  firstRowIndex : UInt64
  jsonl : String
  deriving DecidableEq, Repr

/-- A sequential reader.  Its input and its schema do not change, and stand apart. -/
structure JsonlBlockReader where
  scan : ScanState
  requireFooter : Bool
  finished : Bool
  deriving DecidableEq, Repr

/-- The reader behind bytes that it has read. -/
def JsonlBlockReader.seek (s : JsonlBlockReader) (position : ℕ) : JsonlBlockReader :=
  { s with scan := { s.scan with position := position } }

section

variable [Crc32Fast]

def JsonlBlockReader.newWithMode (data : List UInt8) (requireFooter : Bool) :
    Result JsonlBlockReader := do
  let (_, _) ← validateStreamHeader data 0
  return ⟨.start, requireFooter, false⟩

def JsonlBlockReader.readNextFrame (data : List UInt8) (s : JsonlBlockReader) :
    Result (Option (List UInt8) × JsonlBlockReader) :=
  if s.finished then .ok (none, s)
  else do
    let (record, position) ← readNextRecordFrom data s.scan.position
    match record with
    | .frame frame => return (some frame, s.seek position)
    | .index index => do
        failIf (index ≠ s.scan.metadata)
          (invalidInput "footer index does not match scanned blocks")
        let (_, position) ← ensureReaderEof data position
        return (none, { s.seek position with finished := true })
    | .eof => do
        failIf (s.requireFooter = true) (invalidInput "sealed stream footer is missing")
        return (none, { s.seek position with finished := true })

variable [SerdeJson]

/-- Decode the columns of a block, and compare the text with what the block says of it. -/
def decodeBlock (schema : Schema) (parsed : ParsedBlockPayload) : Result String := do
  let columnFrame := Framing.encodeV1 .columnBlock parsed.columnBlock
  let jsonl ← decodeJsonl columnFrame schema
  failIf (countJsonlRows jsonl ≠ parsed.rowCount)
    (invalidInput "decoded block row count does not match metadata")
  failIf ((asBytes jsonl).length ≠ parsed.rawSize)
    (invalidInput "decoded block raw size does not match metadata")
  return jsonl

/-- Decode the block of a frame. -/
def JsonlBlockReader.decodeFrame (schema : Schema) (s : JsonlBlockReader) (frame : List UInt8) :
    Result (DecodedBlock × JsonlBlockReader) := do
  let (payload, parsed) ← openFrame frame
  s.scan.expectNext parsed
  let jsonl ← decodeBlock schema parsed
  let metadata ← metadataOf s.scan.nextOffset frame.length payload parsed
  let scan ← s.scan.count "stream block index overflow" "stream row count overflow"
    "stream offset overflow" metadata
  return (⟨metadata, parsed.firstRowIndex, jsonl⟩, { s with scan := scan })

def JsonlBlockReader.nextBlock (data : List UInt8) (schema : Schema) (s : JsonlBlockReader) :
    Result (Option DecodedBlock × JsonlBlockReader) := do
  let (frame, s) ← s.readNextFrame data
  match frame with
  | none => return (none, s)
  | some frame => do
      let (block, s) ← s.decodeFrame schema frame
      return (some block, s)

end

/-! ### Decoding a stream -/

section

variable [Crc32Fast] [SerdeJson]

structure DecodeState where
  reader : JsonlBlockReader
  output : List UInt8
  deriving DecidableEq, Repr

def decodeStep (data : List UInt8) (schema : Schema) (s : DecodeState) :
    Result (Option DecodeState) := do
  let (block, reader) ← s.reader.nextBlock data schema
  match block with
  | none => return none
  | some block => return some ⟨reader, s.output ++ asBytes block.jsonl⟩

omit [Crc32Fast] [SerdeJson] in
theorem JsonlBlockReader.readNextFrame_lt {data frame : List UInt8} {s s' : JsonlBlockReader}
    (h : s.readNextFrame data = .ok (some frame, s')) :
    s.scan.position < data.length ∧ s.scan.position < s'.scan.position := by
  unfold readNextFrame at h
  split at h
  · cases h
  · simp only [bind_ok, Prod.exists] at h
    obtain ⟨record, position, hrecord, h⟩ := h
    cases record with
    | frame frame =>
        simp only [pure_ok, Prod.mk.injEq] at h
        obtain ⟨-, rfl⟩ := h
        exact readNextRecordFrom_lt hrecord (by simp)
    | index index => simp at h
    | eof => simp at h

theorem decodeStep_lt {data : List UInt8} {schema : Schema} {s s' : DecodeState}
    (h : decodeStep data schema s = .ok (some s')) :
    s.reader.scan.position < data.length ∧
      s.reader.scan.position < s'.reader.scan.position := by
  simp only [decodeStep, JsonlBlockReader.nextBlock, bind_ok, Prod.exists] at h
  obtain ⟨block, reader, ⟨frame, s₁, hframe, hblock⟩, h⟩ := h
  cases frame with
  | none =>
      simp only [pure_ok, Prod.mk.injEq] at hblock
      obtain ⟨rfl, rfl⟩ := hblock
      simp at h
  | some frame =>
      have hlt := JsonlBlockReader.readNextFrame_lt hframe
      simp only [JsonlBlockReader.decodeFrame, ScanState.count, bind_ok, pure_ok, Prod.exists,
        Prod.mk.injEq] at hblock
      obtain ⟨_, _, ⟨_, _, -, _, -, _, -, _, -, _, ⟨_, -, _, -, _, -, rfl⟩, rfl, rfl⟩, rfl,
        rfl⟩ := hblock
      simp only [pure_ok, Option.some.injEq] at h
      subst h
      exact hlt

def decodeLoop (data : List UInt8) (schema : Schema) : Loop CompactError DecodeState where
  step := decodeStep data schema
  measure s := data.length - s.reader.scan.position
  decreases h := by
    have := decodeStep_lt h
    omega

/-- Decode a v0.2 JSONL block stream into a writer. -/
def decodeJsonlStream (data : List UInt8) (schema : Schema) : Result (List UInt8) := do
  let reader ← JsonlBlockReader.newWithMode data true
  let s ← (decodeLoop data schema).run ⟨reader, []⟩
  return s.output

/-! ### Which streams decode -/

variable {data : List UInt8} {schema : Schema} {blocks : List Block} {block : Block}

/-- The texts of blocks. -/
def DecodesTo (schema : Schema) (blocks : List Block) (texts : List String) : Prop :=
  List.Forall₂ (fun block text => decodeBlock schema block.parsed = .ok text) blocks texts

theorem DecodesTo.exists_text {texts : List String} (h : DecodesTo schema blocks texts)
    (hmem : block ∈ blocks) : ∃ text, decodeBlock schema block.parsed = .ok text := by
  induction h with
  | nil => cases hmem
  | cons htext _ ih =>
      rcases List.mem_cons.1 hmem with rfl | hmem
      · exact ⟨_, htext⟩
      · exact ih hmem

theorem DecodesTo.unique {texts texts' : List String} (h : DecodesTo schema blocks texts)
    (h' : DecodesTo schema blocks texts') : texts = texts' := by
  induction h generalizing texts' with
  | nil => exact (List.forall₂_nil_left_iff.1 h').symm
  | cons htext _ ih =>
      cases h' with
      | cons htext' hrest =>
          rw [htext] at htext'
          cases htext'
          rw [ih hrest]

theorem decodesTo_append {blocks' : List Block} {texts : List String} :
    DecodesTo schema (blocks ++ blocks') texts ↔ ∃ first last, DecodesTo schema blocks first ∧
      DecodesTo schema blocks' last ∧ texts = first ++ last := by
  constructor
  · intro h
    induction blocks generalizing texts with
    | nil => exact ⟨[], texts, .nil, h, rfl⟩
    | cons block blocks ih =>
        obtain ⟨text, rest, htext, hrest, rfl⟩ := List.forall₂_cons_left_iff.1 h
        obtain ⟨first, last, hfirst, hlast, rfl⟩ := ih hrest
        exact ⟨text :: first, last, .cons htext hfirst, hlast, rfl⟩
  · rintro ⟨first, last, hfirst, hlast, rfl⟩
    exact List.rel_append hfirst hlast

/-- The decoder stands behind some blocks, and has written their texts. -/
structure DecodeState.After (schema : Schema) (requireFooter : Bool) (s : DecodeState)
    (blocks : List Block) : Prop where
  counts : s.reader.scan.Counts blocks
  position_eq : s.reader.scan.position = streamEnd blocks
  requireFooter_eq : s.reader.requireFooter = requireFooter
  finished_eq : s.reader.finished = false
  output_eq : ∃ texts, DecodesTo schema blocks texts ∧ s.output = texts.flatMap asBytes

theorem decodeState_start (schema : Schema) (requireFooter : Bool) :
    (⟨⟨.start, requireFooter, false⟩, []⟩ : DecodeState).After schema requireFooter [] :=
  ⟨ScanState.start_counts, rfl, rfl, rfl, [], .nil, rfl⟩

/-- The round on a frame. -/
theorem decodeStep_frame {s : DecodeState} {frame : List UInt8} {position : ℕ}
    (hfinished : s.reader.finished = false)
    (hrecord : readNextRecordFrom data s.reader.scan.position = .ok (.frame frame, position)) :
    decodeStep data schema s =
      (fun next => some ⟨next.2, s.output ++ asBytes next.1.jsonl⟩) <$>
        (s.reader.seek position).decodeFrame schema frame := by
  have hframe : s.reader.readNextFrame data =
      .ok (some frame, s.reader.seek position) := by
    rw [JsonlBlockReader.readNextFrame, if_neg (by simp [hfinished]), hrecord]
    rfl
  rw [decodeStep, JsonlBlockReader.nextBlock, hframe]
  cases h : (s.reader.seek position).decodeFrame schema frame <;>
    simp only [bind, Except.bind, h] <;> rfl

/-- Decoding the frame of the next block. -/
theorem decodeFrame_block {s : JsonlBlockReader} (hs : s.scan.Counts blocks)
    (hfit : Fits data) (hlog : blockLog.Holds data streamHeaderLen (blocks ++ [block])) :
    (∀ text, decodeBlock schema block.parsed = .ok text →
      blockRows (blocks ++ [block]) < 2 ^ 64 → ∃ scan, s.decodeFrame schema block.frame =
        .ok (⟨block.metadata (streamEnd blocks), block.firstRowIndex, text⟩,
          { s with scan := scan }) ∧
          scan.position = s.scan.position ∧ scan.Counts (blocks ++ [block])) ∧
    (¬(blockRows (blocks ++ [block]) < 2 ^ 64 ∧
      ∃ text, decodeBlock schema block.parsed = .ok text) →
        ∃ e, s.decodeFrame schema block.frame = .error e) := by
  obtain ⟨-, hopen, hfit'⟩ := record_block hfit hlog
  obtain ⟨-, hacc, -⟩ := LogFormat.holds_snoc.1 hlog
  constructor
  · intro text htext hrows
    obtain ⟨scan, hcount, hposition, hcounts⟩ := hs.count_ok hfit hlog hrows
      "stream block index overflow" "stream row count overflow" "stream offset overflow"
    refine ⟨scan, ?_, hposition, hcounts⟩
    simp only [JsonlBlockReader.decodeFrame, bind_ok, hopen, Except.ok.injEq, exists_eq_left',
      htext, metadataOf_ok hs.offset_eq hfit', exists_eq_left, hcount, pure_ok]
    exact ⟨(), hs.expectNext_ok.2 hacc.2, rfl⟩
  · intro hbad
    cases hframe : s.decodeFrame schema block.frame with
    | error e => exact ⟨e, rfl⟩
    | ok next =>
        simp only [JsonlBlockReader.decodeFrame, bind_ok, hopen, Except.ok.injEq,
          exists_eq_left', metadataOf_ok hs.offset_eq hfit', exists_eq_left] at hframe
        obtain ⟨_, -, text, htext, scan, hcount, -⟩ := hframe
        by_cases hrows : blockRows (blocks ++ [block]) < 2 ^ 64
        · exact absurd ⟨hrows, text, htext⟩ hbad
        · obtain ⟨e, he⟩ := hs.count_error hrows "stream block index overflow"
            "stream row count overflow" "stream offset overflow"
          rw [hcount] at he
          cases he

/-- The decoder follows the blocks of a log, as long as they decode and the row count fits in a
word. -/
theorem decodeLoop_follows (hfit : Fits data) (requireFooter : Bool) :
    Follows (decodeLoop data schema) blockLog data streamHeaderLen
      (DecodeState.After schema requireFooter)
      (fun blocks => blockRows blocks < 2 ^ 64 ∧
        ∀ block ∈ blocks, ∃ text, decodeBlock schema block.parsed = .ok text) where
  next := by
    intro s blocks block hs hlog hgood
    obtain ⟨hrecord, -⟩ := record_block hfit hlog
    obtain ⟨text, htext⟩ := hgood.2 block (by simp)
    obtain ⟨texts, htexts, hout⟩ := hs.output_eq
    rw [← hs.position_eq] at hrecord
    have hcounts : (s.reader.seek (streamEnd (blocks ++ [block]))).scan.Counts blocks :=
      ⟨hs.counts.1, hs.counts.2, hs.counts.3, hs.counts.4⟩
    obtain ⟨scan, hframe, hposition, hcounts⟩ :=
      (decodeFrame_block hcounts hfit hlog).1 text htext hgood.1
    refine ⟨⟨{ s.reader with scan := scan }, s.output ++ asBytes text⟩, ?_,
      ⟨hcounts, hposition, hs.requireFooter_eq, hs.finished_eq, texts ++ [text], ?_, ?_⟩⟩
    · exact (decodeStep_frame hs.finished_eq hrecord).trans (by rw [hframe]; rfl)
    · exact List.rel_append htexts (.cons htext .nil)
    · rw [hout, List.flatMap_append, List.flatMap_singleton]
  fail := by
    intro s blocks block hs hlog hbad
    obtain ⟨hrecord, -⟩ := record_block hfit hlog
    obtain ⟨texts, htexts, -⟩ := hs.output_eq
    rw [← hs.position_eq] at hrecord
    have hcounts : (s.reader.seek (streamEnd (blocks ++ [block]))).scan.Counts blocks :=
      ⟨hs.counts.1, hs.counts.2, hs.counts.3, hs.counts.4⟩
    -- the blocks before have decoded, so it is the last one that does not
    obtain ⟨e, he⟩ := (decodeFrame_block hcounts hfit hlog).2 fun hlast => hbad ⟨hlast.1, by
      intro b hb
      rcases List.mem_append.1 hb with hb | hb
      · exact htexts.exists_text hb
      · rw [List.mem_singleton.1 hb]
        exact hlast.2⟩
    exact ⟨e, (decodeStep_frame hs.finished_eq hrecord).trans (by rw [he]; rfl)⟩
  good_of_append := by
    intro blocks blocks' hgood
    rw [blockRows_append] at hgood
    exact ⟨by omega, fun block hblock => hgood.2 block (List.mem_append_left _ hblock)⟩

/-- The round at the end of a stream. -/
theorem decodeStep_stream {s : DecodeState} {requireFooter sealed : Bool} (hfit : Fits data)
    (hs : s.After schema requireFooter blocks) (hstream : Stream data blocks sealed)
    (hsealed : requireFooter = true → sealed = true) : decodeStep data schema s = .ok none := by
  have hrecord := hstream.record_end hfit
  rw [← hs.position_eq] at hrecord
  have hframe : ∃ reader, s.reader.readNextFrame data = .ok (none, reader) := by
    rw [JsonlBlockReader.readNextFrame, if_neg (by simp [hs.finished_eq]), hrecord]
    cases sealed with
    | false =>
        have hopen : ¬s.reader.requireFooter = true := by
          rw [hs.requireFooter_eq]
          intro h
          cases hsealed h
        simp only [Bool.false_eq_true, ↓reduceIte, bind, Except.bind, failIf, if_neg hopen]
        exact ⟨_, rfl⟩
    | true =>
        have heof : ensureReaderEof data data.length = .ok ((), data.length) :=
          ensureReaderEof_ok.2 ⟨le_refl _, rfl⟩
        simp only [↓reduceIte, bind, Except.bind, failIf, hs.counts.metadata_eq, ne_eq,
          not_true_eq_false, heof]
        exact ⟨_, rfl⟩
  obtain ⟨reader, hframe⟩ := hframe
  rw [decodeStep, JsonlBlockReader.nextBlock, hframe]
  rfl

/-- Behind a complete log the decoder ends well only at the end of a stream. -/
theorem decodeStep_complete {s : DecodeState} {requireFooter : Bool} {next : Option DecodeState}
    (hfit : Fits data) (hheader : At data 0 writeStreamHeader)
    (hs : s.After schema requireFooter blocks)
    (hlog : blockLog.Complete data streamHeaderLen blocks)
    (h : decodeStep data schema s = .ok next) :
    next = none ∧ ∃ sealed, Stream data blocks sealed ∧ (requireFooter = true → sealed = true) := by
  cases hrecord : readNextRecordFrom data s.reader.scan.position with
  | error e =>
      rw [decodeStep, JsonlBlockReader.nextBlock, JsonlBlockReader.readNextFrame,
        if_neg (by simp [hs.finished_eq]), hrecord] at h
      cases h
  | ok result =>
      obtain ⟨record, position⟩ := result
      have hrecord' := hrecord
      rw [hs.position_eq] at hrecord'
      cases record with
      | frame frame =>
          rw [decodeStep_frame hs.finished_eq hrecord, map_ok] at h
          obtain ⟨⟨block, reader⟩, hframe, -⟩ := h
          have hcounts : (s.reader.seek position).scan.Counts blocks :=
            ⟨hs.counts.1, hs.counts.2, hs.counts.3, hs.counts.4⟩
          simp only [JsonlBlockReader.decodeFrame, bind_ok, Prod.exists] at hframe
          obtain ⟨payload, parsed, hopen, u, hnext, -⟩ := hframe
          exact absurd hnext (record_complete hfit hlog hrecord' hopen hcounts u)
      | index index =>
          simp only [decodeStep, JsonlBlockReader.nextBlock, JsonlBlockReader.readNextFrame,
            if_neg (show ¬s.reader.finished = true by simp [hs.finished_eq]), hrecord, bind_ok,
            Except.ok.injEq, exists_eq_left', failIf_ok, not_not, hs.counts.metadata_eq, pure_ok,
            Prod.exists, Prod.mk.injEq] at h
          obtain ⟨_, _, ⟨_, _, ⟨_, hindex, _, _, heof, rfl, rfl⟩, rfl, rfl⟩, hnext⟩ := h
          cases hnext
          subst hindex
          exact ⟨rfl, true, (stream_of_record hfit hheader hlog.1 hrecord'
            (ensureReaderEof_ok.1 heof).1).2 rfl, fun _ => rfl⟩
      | eof =>
          simp only [decodeStep, JsonlBlockReader.nextBlock, JsonlBlockReader.readNextFrame,
            if_neg (show ¬s.reader.finished = true by simp [hs.finished_eq]), hrecord, bind_ok,
            Except.ok.injEq, exists_eq_left', failIf_ok, hs.requireFooter_eq, pure_ok,
            Prod.exists, Prod.mk.injEq] at h
          obtain ⟨_, _, ⟨_, _, ⟨_, hopen, rfl, rfl⟩, rfl, rfl⟩, hnext⟩ := h
          cases hnext
          obtain ⟨hle, rfl⟩ := (readNextRecordFrom_eof hfit).1 hrecord'
          exact ⟨rfl, false, (stream_of_record hfit hheader hlog.1 hrecord' hle).1 rfl,
            fun h => absurd h hopen⟩

/-- **The block reader decodes exactly the streams** of blocks that decode and whose row count fits
in a word. -/
theorem decodeLoop_ok {requireFooter : Bool} {output : List UInt8} (hfit : Fits data)
    (hheader : At data 0 writeStreamHeader) :
    (∃ final, (decodeLoop data schema).run ⟨⟨.start, requireFooter, false⟩, []⟩ = .ok final ∧
      final.output = output) ↔
      ∃ blocks sealed texts, Stream data blocks sealed ∧ (requireFooter = true → sealed = true) ∧
        blockRows blocks < 2 ^ 64 ∧ DecodesTo schema blocks texts ∧
        output = texts.flatMap asBytes := by
  have hfollows := @decodeLoop_follows _ _ _ schema hfit requireFooter
  have hstart := decodeState_start schema requireFooter
  constructor
  · intro h
    obtain ⟨final, hrun, rfl⟩ := h
    obtain ⟨blocks, hlog⟩ := LogFormat.exists_complete (F := blockLog) (header_le hheader)
    by_cases hgood : blockRows blocks < 2 ^ 64 ∧
        ∀ block ∈ blocks, ∃ text, decodeBlock schema block.parsed = .ok text
    · obtain ⟨s, hrounds, hs⟩ := hfollows.rounds blocks hstart (by simpa using hlog.1)
        (by simpa using hgood)
      rw [List.nil_append] at hs
      rw [hrounds.run_eq] at hrun
      cases hstep : (decodeLoop data schema).step s with
      | error e =>
          rw [Loop.run_of_error hstep] at hrun
          cases hrun
      | ok next =>
          obtain ⟨rfl, sealed, hstream, hsealed⟩ :=
            decodeStep_complete hfit hheader hs hlog hstep
          rw [Loop.run_of_none hstep] at hrun
          cases hrun
          obtain ⟨texts, htexts, hout⟩ := hs.output_eq
          exact ⟨blocks, sealed, texts, hstream, hsealed, hgood.1, htexts, hout⟩
    · obtain ⟨e, he⟩ := hfollows.run_error blocks hstart ⟨by decide, by simp⟩
        (by simpa using hlog.1) (by simpa using hgood)
      rw [he] at hrun
      cases hrun
  · intro h
    obtain ⟨blocks, sealed, texts, hstream, hsealed, hrows, htexts, rfl⟩ := h
    obtain ⟨s, hrounds, hs⟩ := hfollows.rounds blocks hstart (by simpa using hstream.holds)
      ⟨hrows, fun block hblock => htexts.exists_text hblock⟩
    rw [List.nil_append] at hs
    have hstep : (decodeLoop data schema).step s = .ok none :=
      decodeStep_stream hfit hs hstream hsealed
    refine ⟨s, hrounds.run_eq.trans (Loop.run_of_none hstep), ?_⟩
    obtain ⟨texts', htexts', hout⟩ := hs.output_eq
    rw [hout, htexts.unique htexts']

/-- **Which streams decode, and to what.** -/
theorem decodeJsonlStream_ok {output : List UInt8} (hfit : Fits data) :
    decodeJsonlStream data schema = .ok output ↔
      ∃ blocks texts, Stream data blocks true ∧ blockRows blocks < 2 ^ 64 ∧
        DecodesTo schema blocks texts ∧ output = texts.flatMap asBytes := by
  simp only [decodeJsonlStream, JsonlBlockReader.newWithMode, bind_ok, Prod.exists,
    validateStreamHeader_ok hfit, pure_ok]
  constructor
  · intro h
    obtain ⟨_, ⟨_, _, ⟨hheader, -⟩, rfl⟩, final, hrun, hout⟩ := h
    obtain ⟨blocks, sealed, texts, hstream, hsealed, hrest⟩ :=
      (decodeLoop_ok hfit hheader).1 ⟨final, hrun, hout⟩
    rw [hsealed rfl] at hstream
    exact ⟨blocks, texts, hstream, hrest⟩
  · intro h
    obtain ⟨blocks, texts, hstream, hrest⟩ := h
    obtain ⟨final, hrun, hout⟩ := (decodeLoop_ok hfit hstream.header).2
      ⟨blocks, true, texts, hstream, fun _ => rfl, hrest⟩
    exact ⟨_, ⟨(), _, ⟨hstream.header, rfl⟩, rfl⟩, final, hrun, hout⟩

end

end CompactCore.Streaming
