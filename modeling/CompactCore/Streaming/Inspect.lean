/-
**Inspecting `CMP2` streams.**

The inspector scans the records of a stream without decoding columns, sums up what the blocks say of
themselves, and compares the footer, if there is one.

Main definitions:

* `CompactCore.Streaming.inspectJsonlStream` — the inspector;
* `CompactCore.Streaming.inspectOf` — what it reports of a stream of blocks.

Main results:

* `CompactCore.Streaming.inspectLoop_follows` — the inspection follows the log of blocks;
* `CompactCore.Streaming.inspectJsonlStream_ok` — **which streams the inspector accepts**.
-/

import CompactCore.Streaming.Scan
import CompactCore.Wire.Scan

set_option relaxedAutoImplicit false
set_option autoImplicit false

namespace CompactCore.Streaming

open Wire CompactError

/-! ### Inspecting a stream -/

/-- Metadata summary for a v0.2 stream. -/
structure StreamInspect where
  blocks : List BlockMetadata
  footerIndex : Option (List BlockMetadata)
  totalRows : UInt64
  totalUncompressedSize : UInt64
  totalCompressedSize : UInt64
  deriving DecidableEq, Repr

structure InspectState where
  scan : ScanState
  footerIndex : Option (List BlockMetadata)
  finished : Bool
  deriving DecidableEq, Repr

/-- `checked_block_total`, and `checked_total` of the append log. -/
def checkedBlockTotal (blocks : List BlockMetadata) (value : BlockMetadata → UInt64)
    (error : String) : Result UInt64 :=
  blocks.foldlM (fun total block => okOr (invalidInput error) (checkedAdd total (value block))) 0

section

variable [Crc32Fast]

/-- Count the block of a frame. -/
def inspectFrame (s : InspectState) (position : ℕ) (frame : List UInt8) : Result InspectState := do
  let (payload, parsed) ← openFrame frame
  s.scan.expectNext parsed
  let metadata ← metadataOf s.scan.nextOffset frame.length payload parsed
  let scan ← s.scan.count "stream block index overflow" "stream row count overflow"
    "stream offset overflow" metadata
  return { s with scan := { scan with position := position } }

/-- One round of the inspection.  The footer and the end of the input end the loop. -/
def inspectStep (data : List UInt8) (s : InspectState) : Result (Option InspectState) :=
  if s.finished then .ok none
  else do
    let (record, position) ← readNextRecordFrom data s.scan.position
    match record with
    | .frame frame => do
        let s ← inspectFrame s position frame
        return some s
    | .index index => do
        let (_, _) ← ensureReaderEof data position
        return some { s with footerIndex := some index, finished := true }
    | .eof => return some { s with finished := true }

/-- What is left to do: bytes, and the round that finishes. -/
def InspectState.measure (data : List UInt8) (s : InspectState) : ℕ :=
  data.length - s.scan.position + if s.finished then 0 else 1

theorem inspectStep_measure {data : List UInt8} {s s' : InspectState}
    (h : inspectStep data s = .ok (some s')) : s'.measure data < s.measure data := by
  unfold inspectStep at h
  split at h
  · cases h
  · rename_i hfinished
    simp only [bind_ok, Prod.exists] at h
    obtain ⟨record, position, hrecord, h⟩ := h
    cases record with
    | frame frame =>
        have hlt := readNextRecordFrom_lt hrecord (by simp)
        simp only [inspectFrame, ScanState.count, bind_ok, pure_ok, Prod.exists,
          Option.some.injEq] at h
        obtain ⟨_, ⟨_, _, -, _, -, _, -, _, ⟨_, -, _, -, _, -, rfl⟩, rfl⟩, rfl⟩ := h
        simp only [InspectState.measure]
        split <;> omega
    | index index =>
        simp only [bind_ok, Prod.exists, pure_ok, Option.some.injEq] at h
        obtain ⟨_, _, -, rfl⟩ := h
        simp [InspectState.measure, hfinished]
    | eof =>
        simp only [pure_ok, Option.some.injEq] at h
        subst h
        simp [InspectState.measure, hfinished]

def inspectLoop (data : List UInt8) : Loop CompactError InspectState where
  step := inspectStep data
  measure := InspectState.measure data
  decreases := inspectStep_measure

/-- Inspect v0.2 block metadata without decoding column values. -/
def inspectJsonlStream (data : List UInt8) : Result StreamInspect := do
  let (_, _) ← validateStreamHeader data 0
  let s ← (inspectLoop data).run ⟨.start, none, false⟩
  let blocks := s.scan.metadata
  let totalRows ← checkedBlockTotal blocks (·.rowCount) "stream row count overflow"
  let totalUncompressedSize ← checkedBlockTotal blocks (·.uncompressedSize)
    "stream uncompressed size overflow"
  let totalCompressedSize ← checkedBlockTotal blocks (·.compressedSize)
    "stream compressed size overflow"
  failIf (s.footerIndex.isSome ∧ s.footerIndex ≠ some blocks)
    (invalidInput "footer index does not match scanned blocks")
  return ⟨blocks, s.footerIndex, totalRows, totalUncompressedSize, totalCompressedSize⟩

variable {data : List UInt8} {blocks : List Block} {block : Block}

/-! ### Which streams the inspector accepts -/

/-- The sum of a field of some blocks. -/
def blockSum (value : BlockMetadata → UInt64) (blocks : List BlockMetadata) : ℕ :=
  (blocks.map fun block => (value block).toNat).sum

omit [Crc32Fast] in
theorem checkedBlockTotal_ok {metadata : List BlockMetadata} {value : BlockMetadata → UInt64}
    {error : String} {total : UInt64} : checkedBlockTotal metadata value error = .ok total ↔
      total.toNat = blockSum value metadata := by
  have hfold : ∀ (metadata : List BlockMetadata) (start : UInt64),
      metadata.foldlM (fun total block =>
        okOr (invalidInput error) (checkedAdd total (value block))) start = .ok total ↔
          total.toNat = start.toNat + blockSum value metadata := by
    intro metadata
    induction metadata with
    | nil =>
        intro start
        rw [List.foldlM_nil, pure_ok, blockSum, List.map_nil, List.sum_nil, Nat.add_zero,
          UInt64.toNat_inj, eq_comm]
    | cons block metadata ih =>
        intro start
        simp only [List.foldlM_cons, bind_ok, okOr_ok, checkedAdd_eq_some, ih]
        have htotal := total.toNat_lt
        constructor
        · intro h
          obtain ⟨next, hnext, hsum⟩ := h
          rw [hsum, hnext, blockSum, blockSum, List.map_cons, List.sum_cons, Nat.add_assoc]
        · intro h
          rw [blockSum, List.map_cons, List.sum_cons] at h
          have hnext : (UInt64.ofNat (start.toNat + (value block).toNat)).toNat =
              start.toNat + (value block).toNat := toNat_ofNat (by omega)
          refine ⟨_, hnext, ?_⟩
          rw [hnext, h, blockSum, Nat.add_assoc]
  rw [checkedBlockTotal, hfold]
  simp

theorem blockSum_rowCount (offset : ℕ) (blocks : List Block) :
    blockSum (·.rowCount) (metadataFrom offset blocks) = blockRows blocks := by
  induction blocks generalizing offset with
  | nil => rfl
  | cons block blocks ih =>
      rw [metadataFrom, blockSum, List.map_cons, List.sum_cons, blockRows, List.map_cons,
        List.sum_cons]
      exact congrArg _ (ih _)

/-- The number of raw bytes of some blocks. -/
def blockRaw (blocks : List Block) : ℕ := (blocks.map fun block => block.rawSize.toNat).sum

omit [Crc32Fast] in
theorem blockRaw_append (blocks blocks' : List Block) :
    blockRaw (blocks ++ blocks') = blockRaw blocks + blockRaw blocks' := by
  simp [blockRaw]

theorem blockSum_uncompressedSize (offset : ℕ) (blocks : List Block) :
    blockSum (·.uncompressedSize) (metadataFrom offset blocks) = blockRaw blocks := by
  induction blocks generalizing offset with
  | nil => rfl
  | cons block blocks ih =>
      rw [metadataFrom, blockSum, List.map_cons, List.sum_cons, blockRaw, List.map_cons,
        List.sum_cons]
      exact congrArg _ (ih _)

theorem blockSum_compressedSize {offset : ℕ}
    (h : offset + (blockLog.flat blocks).length < 2 ^ 64) :
    blockSum (·.compressedSize) (metadataFrom offset blocks) = (blockLog.flat blocks).length := by
  induction blocks generalizing offset with
  | nil => rfl
  | cons block blocks ih =>
      rw [LogFormat.flat_cons, List.length_append, blockLog_bytes] at h ⊢
      have hbound : offset + block.frame.length + (blockLog.flat blocks).length < 2 ^ 64 := by omega
      have hrest := ih hbound
      rw [metadataFrom, blockSum, List.map_cons, List.sum_cons]
      exact congrArg₂ _ (toNat_ofNat (by omega)) hrest

/-- What the inspector reports of a stream. -/
def inspectOf (blocks : List Block) (sealed : Bool) : StreamInspect where
  blocks := metadataFrom streamHeaderLen blocks
  footerIndex := if sealed then some (metadataFrom streamHeaderLen blocks) else none
  totalRows := UInt64.ofNat (blockRows blocks)
  totalUncompressedSize := UInt64.ofNat (blockRaw blocks)
  totalCompressedSize := UInt64.ofNat (blockLog.flat blocks).length

/-- The inspection stands behind some blocks. -/
structure InspectState.After (s : InspectState) (blocks : List Block) : Prop where
  counts : s.scan.Counts blocks
  position_eq : s.scan.position = streamEnd blocks
  footerIndex_eq : s.footerIndex = none
  finished_eq : s.finished = false

/-- The round on a frame. -/
theorem inspectStep_frame {s : InspectState} {frame : List UInt8} {position : ℕ}
    (hfinished : s.finished = false)
    (hrecord : readNextRecordFrom data s.scan.position = .ok (.frame frame, position)) :
    inspectStep data s = some <$> inspectFrame s position frame := by
  rw [inspectStep, hfinished, if_neg (by decide), hrecord]
  rfl

/-- The inspection follows the blocks of a log, as long as the row count fits in a word. -/
theorem inspectLoop_follows (hfit : Fits data) :
    Follows (inspectLoop data) blockLog data streamHeaderLen InspectState.After
      (fun blocks => blockRows blocks < 2 ^ 64) where
  next := by
    intro s blocks block hs hlog hgood
    obtain ⟨hrecord, hopen, hfit'⟩ := record_block hfit hlog
    obtain ⟨-, hacc, -⟩ := LogFormat.holds_snoc.1 hlog
    rw [← hs.position_eq] at hrecord
    obtain ⟨scan, hcount, hposition, hcounts⟩ := hs.counts.count_ok hfit hlog hgood
      "stream block index overflow" "stream row count overflow" "stream offset overflow"
    refine ⟨{ s with scan := { scan with position := streamEnd (blocks ++ [block]) } }, ?_,
      ⟨⟨hcounts.1, hcounts.2, hcounts.3, hcounts.4⟩, rfl, hs.footerIndex_eq, hs.finished_eq⟩⟩
    have hframe : inspectFrame s (streamEnd (blocks ++ [block])) block.frame =
        .ok { s with scan := { scan with position := streamEnd (blocks ++ [block]) } } := by
      simp only [inspectFrame, bind_ok, hopen, Except.ok.injEq, exists_eq_left',
        metadataOf_ok hs.counts.offset_eq hfit', exists_eq_left, hcount, pure_ok]
      exact ⟨(), hs.counts.expectNext_ok.2 hacc.2, trivial⟩
    exact (inspectStep_frame hs.finished_eq hrecord).trans (by rw [hframe]; rfl)
  fail := by
    intro s blocks block hs hlog hbad
    obtain ⟨hrecord, hopen, hfit'⟩ := record_block hfit hlog
    rw [← hs.position_eq] at hrecord
    have hstep := inspectStep_frame hs.finished_eq hrecord
    cases hframe : inspectFrame s (streamEnd (blocks ++ [block])) block.frame with
    | error e => exact ⟨e, hstep.trans (by rw [hframe]; rfl)⟩
    | ok s' =>
        obtain ⟨e, he⟩ := hs.counts.count_error hbad "stream block index overflow"
          "stream row count overflow" "stream offset overflow"
        simp only [inspectFrame, bind_ok, hopen, Except.ok.injEq, exists_eq_left',
          metadataOf_ok hs.counts.offset_eq hfit', exists_eq_left, he, reduceCtorEq,
          false_and] at hframe
        obtain ⟨_, -, _, hframe⟩ := hframe
        exact hframe.elim
  good_of_append := by
    intro blocks blocks' hgood
    rw [blockRows_append] at hgood
    omega

/-- The round on a footer. -/
theorem inspectStep_index {s : InspectState} {index : List BlockMetadata} {position : ℕ}
    (hfinished : s.finished = false)
    (hrecord : readNextRecordFrom data s.scan.position = .ok (.index index, position)) :
    inspectStep data s = (fun _ => some { s with footerIndex := some index, finished := true }) <$>
      ensureReaderEof data position := by
  rw [inspectStep, hfinished, if_neg (by decide), hrecord]
  rfl

/-- The round at the end of the input. -/
theorem inspectStep_eof {s : InspectState} {position : ℕ} (hfinished : s.finished = false)
    (hrecord : readNextRecordFrom data s.scan.position = .ok (.eof, position)) :
    inspectStep data s = .ok (some { s with finished := true }) := by
  rw [inspectStep, hfinished, if_neg (by decide), hrecord]
  rfl

theorem inspectLoop_finished {s : InspectState} (h : s.finished = true) :
    (inspectLoop data).run s = .ok s := by
  refine Loop.run_of_none ?_
  show inspectStep data s = _
  rw [inspectStep, h, if_pos rfl]

/-- Behind a complete log the inspection ends well only at the end of a stream. -/
theorem inspectLoop_end {s final : InspectState} (hfit : Fits data)
    (hheader : At data 0 writeStreamHeader) (hs : s.After blocks)
    (hlog : blockLog.Complete data streamHeaderLen blocks)
    (h : (inspectLoop data).run s = .ok final)
    (hfooter : final.footerIndex = none ∨ final.footerIndex = some final.scan.metadata) :
    final.scan.metadata = metadataFrom streamHeaderLen blocks ∧
      Stream data blocks final.footerIndex.isSome := by
  obtain ⟨hcounts, hposition, hnone, hfinished⟩ := hs
  cases hstep : (inspectLoop data).step s with
  | error e =>
      rw [Loop.run_of_error hstep] at h
      cases h
  | ok next =>
      have hround : inspectStep data s = .ok next := hstep
      cases hrecord : readNextRecordFrom data s.scan.position with
      | error e =>
          rw [inspectStep, hfinished, if_neg (by decide), hrecord] at hround
          cases hround
      | ok result =>
          obtain ⟨record, position⟩ := result
          have hrecord' := hrecord
          rw [hposition] at hrecord'
          cases record with
          | frame frame =>
              rw [inspectStep_frame hfinished hrecord, map_ok] at hround
              obtain ⟨s', hframe, -⟩ := hround
              simp only [inspectFrame, bind_ok, Prod.exists] at hframe
              obtain ⟨payload, parsed, hopen, u, hnext, -⟩ := hframe
              exact absurd hnext (record_complete hfit hlog hrecord' hopen hcounts u)
          | index index =>
              rw [inspectStep_index hfinished hrecord, map_ok] at hround
              obtain ⟨⟨_, _⟩, heof, rfl⟩ := hround
              rw [Loop.run_of_some hstep, inspectLoop_finished rfl] at h
              cases h
              refine ⟨hcounts.metadata_eq, ?_⟩
              rcases hfooter with hfooter | hfooter
              · cases hfooter
              · simp only [Option.some.injEq, hcounts.metadata_eq] at hfooter
                subst hfooter
                exact (stream_of_record hfit hheader hlog.1 hrecord'
                  (ensureReaderEof_ok.1 heof).1).2 rfl
          | eof =>
              rw [inspectStep_eof hfinished hrecord] at hround
              cases hround
              rw [Loop.run_of_some hstep, inspectLoop_finished rfl] at h
              cases h
              refine ⟨hcounts.metadata_eq, ?_⟩
              simp only [hnone, Option.isSome_none]
              obtain ⟨hle, rfl⟩ := (readNextRecordFrom_eof hfit).1 hrecord'
              exact (stream_of_record hfit hheader hlog.1 hrecord' hle).1 rfl

/-- The inspection of a stream. -/
theorem inspectLoop_stream {s : InspectState} {sealed : Bool} (hfit : Fits data)
    (hs : s.After blocks) (hstream : Stream data blocks sealed) :
    (inspectLoop data).run s = .ok { s with
      footerIndex := if sealed then some (metadataFrom streamHeaderLen blocks) else none
      finished := true } := by
  obtain ⟨hcounts, hposition, hnone, hfinished⟩ := hs
  have hrecord := hstream.record_end hfit
  rw [← hposition] at hrecord
  cases sealed with
  | false =>
      have hstep : (inspectLoop data).step s = .ok (some { s with finished := true }) :=
        inspectStep_eof hfinished hrecord
      rw [Loop.run_of_some hstep, inspectLoop_finished rfl, if_neg (by decide), hnone]
  | true =>
      have heof : ensureReaderEof data data.length = .ok ((), data.length) :=
        ensureReaderEof_ok.2 ⟨le_refl _, rfl⟩
      have hstep : (inspectLoop data).step s = .ok (some { s with
          footerIndex := some (metadataFrom streamHeaderLen blocks), finished := true }) :=
        (inspectStep_index hfinished hrecord).trans (by rw [heof]; rfl)
      rw [Loop.run_of_some hstep, inspectLoop_finished rfl, if_pos rfl]

/-- The inspection starts behind no block. -/
theorem inspectState_start : (⟨.start, none, false⟩ : InspectState).After [] :=
  ⟨ScanState.start_counts, rfl, rfl, rfl⟩

/-- **The inspector accepts exactly the streams** whose row count and raw size fit in a word. -/
theorem inspectJsonlStream_ok {report : StreamInspect} (hfit : Fits data) :
    inspectJsonlStream data = .ok report ↔ ∃ blocks sealed, Stream data blocks sealed ∧
      blockRows blocks < 2 ^ 64 ∧ blockRaw blocks < 2 ^ 64 ∧ report = inspectOf blocks sealed := by
  simp only [inspectJsonlStream, bind_ok, Prod.exists, validateStreamHeader_ok hfit,
    checkedBlockTotal_ok, failIf_ok, not_and, not_not, pure_ok]
  constructor
  · intro h
    obtain ⟨_, _, ⟨hheader, -⟩, final, hrun, rows, hrows, raw, hraw, size, hsize, _, hfooter,
      rfl⟩ := h
    obtain ⟨blocks, hlog⟩ := LogFormat.exists_complete (F := blockLog) (header_le hheader)
    have hfollows := inspectLoop_follows hfit
    by_cases hgood : blockRows blocks < 2 ^ 64
    · obtain ⟨s, hrounds, hs⟩ := hfollows.rounds blocks inspectState_start
        (by simpa using hlog.1) hgood
      rw [List.nil_append] at hs
      rw [hrounds.run_eq] at hrun
      have hfooter' : final.footerIndex = none ∨
          final.footerIndex = some final.scan.metadata := by
        cases hindex : final.footerIndex with
        | none => exact Or.inl rfl
        | some index => exact Or.inr (by rw [← hindex]; exact hfooter (by rw [hindex]; rfl))
      obtain ⟨hmeta, hstream⟩ := inspectLoop_end hfit hheader hs hlog hrun hfooter'
      rw [hmeta] at hrows hraw hsize
      rw [blockSum_rowCount] at hrows
      rw [blockSum_uncompressedSize] at hraw
      rw [blockSum_compressedSize (lt_of_le_of_lt hlog.1.le hfit)] at hsize
      refine ⟨blocks, _, hstream, hgood, hraw ▸ raw.toNat_lt, ?_⟩
      rw [inspectOf, hmeta, eq_ofNat hrows, eq_ofNat hraw, eq_ofNat hsize]
      rcases hfooter' with hindex | hindex
      · rw [hindex]
        rfl
      · rw [hindex, hmeta]
        rfl
    · obtain ⟨e, he⟩ := hfollows.run_error blocks inspectState_start (by
        show 0 < 2 ^ 64
        decide) (by simpa using hlog.1) hgood
      rw [he] at hrun
      cases hrun
  · intro h
    obtain ⟨blocks, sealed, hstream, hrows, hraw, rfl⟩ := h
    obtain ⟨s, hrounds, hs⟩ := (inspectLoop_follows hfit).rounds blocks inspectState_start
      (by simpa using hstream.holds) hrows
    rw [List.nil_append] at hs
    have hrun := hrounds.run_eq.trans (inspectLoop_stream hfit hs hstream)
    have hflat := lt_of_le_of_lt hstream.holds.le hfit
    rw [wordSize] at hflat
    refine ⟨(), _, ⟨hstream.header, rfl⟩, _, hrun, UInt64.ofNat (blockRows blocks), ?_,
      UInt64.ofNat (blockRaw blocks), ?_, UInt64.ofNat (blockLog.flat blocks).length, ?_, (),
      ?_, ?_⟩
    · rw [hs.counts.metadata_eq, blockSum_rowCount, toNat_ofNat hrows]
    · rw [hs.counts.metadata_eq, blockSum_uncompressedSize, toNat_ofNat hraw]
    · rw [hs.counts.metadata_eq, blockSum_compressedSize hflat, toNat_ofNat (by omega)]
    · rw [hs.counts.metadata_eq]
      cases sealed <;> simp
    · rw [hs.counts.metadata_eq]
      rfl

end

end CompactCore.Streaming
