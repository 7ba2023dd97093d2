/-
**What rolled segments are recovered to.**

Every segment is an append log of its own.  Recovery finds all its blocks, numbered from zero, and
the column blocks of the segments, one segment after the other, hold the rows of the input.  They
decode unless a row group has more bytes in a run-length encoded column than the decoder takes,
which nobody asks when it is encoded.

Main definitions:

* `CompactCore.Streaming.recoveredRows` — what the recovered blocks of segments decode to;
* `CompactCore.Streaming.Recovers` — a segment is recovered as a whole;
* `CompactCore.Streaming.SegmentLimits` — the limits of recovery and of the decoder.

Main results:

* `CompactCore.Streaming.IsSegment.recover` — what a segment is recovered to;
* `CompactCore.Streaming.rollJsonlAppendSegments_recovered` — **when the segments give the rows
  back**.
-/

import CompactCore.Streaming.Rolling

set_option relaxedAutoImplicit false
set_option autoImplicit false

namespace CompactCore.Streaming

open Wire CompactError Io

/-! ### The rows of recovered blocks -/

section

variable [Crc32Fast] [SerdeJson] (schema : Schema)

/-- Decode the column block of a block that has been recovered. -/
def recoveredColumns (segment : List UInt8) (entry : BlockMetadata) : Result String := do
  let (_, parsed) ← openFrame
    ((segment.drop entry.encodedOffset.toNat).take entry.compressedSize.toNat)
  decodeJsonl (Framing.encodeV1 .columnBlock parsed.columnBlock) schema

/-- Decode the column blocks of a segment. -/
def segmentRows (segment : List UInt8) : Result String := do
  let recovery ← recoverAppendStream segment
  String.join <$> recovery.blocks.mapM (recoveredColumns schema segment)

/-- Decode the column blocks of all segments, one after the other. -/
def recoveredRows (segments : List (List UInt8)) : Result String :=
  String.join <$> segments.mapM (segmentRows schema)

end

/-- A segment is recovered as a whole: it has blocks, numbered from zero, and no damaged tail. -/
def Recovers [Crc32Fast] (segment : List UInt8) : Prop :=
  ∃ r, recoverAppendStream segment = .ok r ∧ r.validLen.toNat = segment.length ∧ r.blocks ≠ [] ∧
    r.truncatedOrCorruptTail = false ∧ Contiguous segment r.blocks

/-- The limits of recovery and of the decoder, for the row groups of a segment. -/
structure SegmentLimits [SerdeJson] (schema : Schema) (groups : List (List String)) : Prop where
  raw_lt : (groups.flatten.map String.utf8ByteSize).sum < 2 ^ 64
  columns : ∀ rows ∈ groups, ColumnsWithin schema rows

instance [SerdeJson] (schema : Schema) (groups : List (List String)) :
    Decidable (SegmentLimits schema groups) :=
  decidable_of_iff ((groups.flatten.map String.utf8ByteSize).sum < 2 ^ 64 ∧
    ∀ rows ∈ groups, ColumnsWithin schema rows) ⟨fun h => ⟨h.1, h.2⟩, fun h => ⟨h.1, h.2⟩⟩

/-! ### Segments have row groups -/

theorem rollRows_ne_nil {size : List String → ℕ} {options : BlockOptions} {rolling : RollingOptions}
    (rows : List String) : ∀ groups ∈ rollRows size options rolling rows, groups ≠ [] := by
  induction rows using List.reverseRecOn with
  | nil => exact List.forall_mem_nil _
  | append_singleton rows row ih =>
      rw [rollRows] at ih ⊢
      rw [List.foldl_append, List.foldl_cons, List.foldl_nil, Rolled.add]
      generalize rows.foldl (Rolled.add size options rolling) Rolled.start = r at ih
      have hfinish : (r.finishFull size rolling).finish = r.finish := r.finish_finishFull
      rw [← hfinish] at ih
      generalize r.finishFull size rolling = r' at ih ⊢
      intro groups hmem
      rcases List.mem_append.1 hmem with hmem | hmem
      · refine ih groups ?_
        rw [Rolled.finish]
        split
        · exact hmem
        · exact List.mem_append_left _ hmem
      · have hlen := Cut.length_finish_add options r'.openCut row
        rw [List.mem_singleton.1 hmem]
        intro hnil
        rw [hnil, List.length_nil] at hlen
        omega

/-! ### What a segment is recovered to -/

section

variable [Crc32Fast] [SerdeJson] {schema : Schema} {groups : List (List String)}
  {segment : List UInt8} {blocks : List Block}

omit [Crc32Fast] in
theorem Encoded.payload_le {old : List Block} (h : Encoded schema old groups blocks)
    (hwithin : ∀ rows ∈ groups, PayloadWithin schema rows) :
    ∀ block ∈ blocks, block.payload.length ≤ maxEncodedBlockBytes := by
  intro block hmem
  obtain ⟨rows, hrows, group, done, hencode, hnext⟩ := exists_of_forall₂_mem_right h.forall₂ hmem
  rw [Block.length_payload, hnext.columnBlock_eq]
  exact hwithin rows hrows group hencode

omit [Crc32Fast] in
theorem Encoded.raw_eq {old : List Block} {maxRowLen : ℕ} (h : Encoded schema old groups blocks)
    (hrows : ∀ rows ∈ groups, ∀ row ∈ rows, IsRow maxRowLen row) :
    blockRaw blocks = (groups.flatten.map String.utf8ByteSize).sum := by
  induction h with
  | nil => rfl
  | @snoc groups blocks rows group block _ hgroup hnext ih =>
      obtain ⟨-, hraw⟩ := encodeJsonlRowGroup_counts hgroup (hrows rows (by simp))
      have hblock : blockRaw [block] = block.rawSize.toNat := by simp [blockRaw]
      rw [blockRaw_append, ih fun g hg => hrows g (List.mem_append_left _ hg), hblock,
        hnext.rawSize_eq, hraw, List.flatten_append, List.flatten_singleton, List.map_append,
        List.sum_append]

/-- The log of a segment is all that recovery finds. -/
theorem IsSegment.complete (h : IsSegment schema groups segment blocks)
    (hmax : ∀ block ∈ blocks, block.payload.length ≤ maxEncodedBlockBytes) :
    At segment 0 writeStreamHeader ∧ appendLog.Complete segment streamHeaderLen blocks := by
  rw [h.segment_eq]
  exact ⟨at_mid [] writeStreamHeader _, (complete_full (h.encoded.chain hmax)).capped h.count_le⟩

/-- **What a segment is recovered to**: its blocks, unless their raw bytes overflow. -/
theorem IsSegment.recover (h : IsSegment schema groups segment blocks)
    (hmax : ∀ block ∈ blocks, block.payload.length ≤ maxEncodedBlockBytes) {r : AppendRecovery} :
    recoverAppendStream segment = .ok r ↔
      blockRaw blocks < 2 ^ 64 ∧ r = appendRecoveryOf segment blocks := by
  obtain ⟨hheader, hlog⟩ := h.complete hmax
  obtain ⟨hok, herror⟩ := recoverAppendStream_complete h.fits hheader hlog
  constructor
  · intro hr
    by_cases hgood : blockRows blocks < 2 ^ 64 ∧ blockRaw blocks < 2 ^ 64
    · rw [hok hgood] at hr
      exact ⟨hgood.2, (Except.ok.inj hr).symm⟩
    · exact absurd hr (exists_error_iff.1 (herror hgood) r)
  · rintro ⟨hraw, rfl⟩
    exact hok ⟨h.rows_lt, hraw⟩

/-- A segment is recovered as a whole. -/
theorem IsSegment.recovers (h : IsSegment schema groups segment blocks)
    (hmax : ∀ block ∈ blocks, block.payload.length ≤ maxEncodedBlockBytes) (hne : groups ≠ [])
    (hraw : blockRaw blocks < 2 ^ 64) : Recovers segment := by
  obtain ⟨-, hlog⟩ := h.complete hmax
  have hlen : segment.length = streamEnd blocks := by rw [h.segment_eq, length_header_append]
  have hvalid : (UInt64.ofNat (streamEnd blocks)).toNat = streamEnd blocks := toNat_ofNat h.end_lt
  refine ⟨_, (h.recover hmax).2 ⟨hraw, rfl⟩, hvalid.trans hlen.symm, ?_, ?_,
    contiguous_metadata h.fits (LogFormat.capped_holds.1 hlog.1).1⟩
  · intro hnil
    have hcount := congrArg List.length hnil
    rw [appendRecoveryOf, length_metadataFrom, h.encoded.length_eq] at hcount
    exact hne (List.length_eq_zero_iff.1 hcount)
  · rw [appendRecoveryOf, hlen]
    exact decide_eq_false (lt_irrefl _)

/-- The column block of an entry of the recovered metadata is that of its block. -/
theorem mapM_recoveredColumns (hfit : Fits segment) {before after : List Block}
    (hlog : blockLog.Holds segment streamHeaderLen (before ++ after)) :
    (metadataFrom (streamEnd before) after).mapM (recoveredColumns schema segment) =
      after.mapM fun block : Block =>
        decodeJsonl (Framing.encodeV1 .columnBlock block.columnBlock) schema := by
  induction after generalizing before with
  | nil => rfl
  | cons block after ih =>
      rw [List.append_cons] at hlog
      have hfirst := hlog.of_append
      have hrest := ih hlog
      obtain ⟨-, -, hat⟩ := LogFormat.holds_snoc.1 hfirst
      have hend := hat.le
      rw [blockLog_bytes] at hend
      have hword : segment.length < 2 ^ 64 := hfit
      have hopen : openFrame ((segment.drop (streamEnd before)).take block.frame.length) =
          .ok (block.payload, block.parsed) := by
        have hslice := hat.slice
        rw [blockLog_bytes] at hslice
        rw [streamEnd, hslice]
        exact (record_block hfit hfirst).2.1
      have hcolumns : recoveredColumns schema segment (block.metadata (streamEnd before)) =
          decodeJsonl (Framing.encodeV1 .columnBlock block.columnBlock) schema := by
        rw [recoveredColumns, Block.metadata_offset (by rw [streamEnd]; omega),
          Block.metadata_size (by omega), hopen]
        rfl
      rw [streamEnd_snoc] at hrest
      rw [metadataFrom, List.mapM_cons, List.mapM_cons, hcolumns, hrest]

omit [Crc32Fast] in
/-- What the column block of an encoded row group decodes to. -/
theorem decodeColumns_encoded [Crc32Fast] {rows : List String} {block : Block} {maxRowLen : ℕ}
    (hblock : block.Holds schema rows) (hrows : ∀ row ∈ rows, IsRow maxRowLen row)
    (hmax : block.payload.length ≤ maxEncodedBlockBytes) :
    ∃ objects, rows.mapM rowObject = .ok objects ∧ ∀ text,
      decodeJsonl (Framing.encodeV1 .columnBlock block.columnBlock) schema = .ok text ↔
        ColumnsWithin schema rows ∧ text = renderRows schema.columns objects := by
  obtain ⟨group, done, hencode, hnext⟩ := hblock
  obtain ⟨objects, _, _, _, hobjects, _⟩ := encodeJsonlRowGroup_ok hencode
  have hfit : Fits (Framing.encodeV1 .columnBlock group.payload) := by
    have hword : Framing.headerLen + maxEncodedBlockBytes < wordSize := by decide
    rw [Block.length_payload, hnext.columnBlock_eq] at hmax
    rw [Fits, Framing.length_encodeV1]
    omega
  have hwithin : ColumnsWithin schema rows ↔ RleWithinLimit schema.columns objects := by
    rw [ColumnsWithin, hobjects]
    simp
  refine ⟨objects, (parseRows_join hrows).symm.trans hobjects, fun text => ?_⟩
  rw [hnext.columnBlock_eq, hwithin]
  constructor
  · intro hdecode
    have hrle := rleWithinLimit_of_decodeJsonl hencode hobjects hfit hdecode
    rw [decodeJsonl_encodeJsonlRowGroup hencode hobjects hfit hrle] at hdecode
    exact ⟨hrle, (Except.ok.inj hdecode).symm⟩
  · rintro ⟨hrle, rfl⟩
    exact decodeJsonl_encodeJsonlRowGroup hencode hobjects hfit hrle

/-- **What a segment decodes to**: the rows of its row groups, within the limits. -/
theorem IsSegment.segmentRows {maxRowLen : ℕ} (h : IsSegment schema groups segment blocks)
    (hrows : ∀ rows ∈ groups, ∀ row ∈ rows, IsRow maxRowLen row)
    (hmax : ∀ block ∈ blocks, block.payload.length ≤ maxEncodedBlockBytes) :
    ∃ objects, groups.flatten.mapM rowObject = .ok objects ∧ ∀ text,
      segmentRows schema segment = .ok text ↔
        SegmentLimits schema groups ∧ text = renderRows schema.columns objects := by
  have hparts : List.Forall₂ (fun rows (block : Block) => ∃ objects,
      (id rows : List String).mapM rowObject = .ok objects ∧ ∀ text,
        decodeJsonl (Framing.encodeV1 .columnBlock block.columnBlock) schema = .ok text ↔
          ColumnsWithin schema rows ∧ text = renderRows schema.columns objects) groups blocks := by
    refine List.forall₂_iff_get.2 ⟨h.encoded.length_eq.symm, fun i hi hi' => ?_⟩
    exact decodeColumns_encoded ((List.forall₂_iff_get.1 h.encoded.forall₂).2 i hi hi')
      (hrows _ (List.get_mem groups ⟨i, hi⟩)) (hmax _ (List.get_mem blocks ⟨i, hi'⟩))
  obtain ⟨objects, hobjects, htexts⟩ := exists_decoded hparts
  rw [List.flatMap_id] at hobjects
  obtain ⟨-, hlog⟩ := h.complete hmax
  have hcolumns : (appendRecoveryOf segment blocks).blocks.mapM (recoveredColumns schema segment) =
      blocks.mapM fun block : Block =>
        decodeJsonl (Framing.encodeV1 .columnBlock block.columnBlock) schema :=
    @mapM_recoveredColumns _ _ _ _ h.fits [] blocks (LogFormat.capped_holds.1 hlog.1).1
  refine ⟨objects, hobjects, fun text => ?_⟩
  simp only [Streaming.segmentRows, bind_ok, h.recover hmax, h.encoded.raw_eq hrows]
  constructor
  · rintro ⟨_, ⟨hraw, rfl⟩, hdecode⟩
    rw [hcolumns, htexts] at hdecode
    exact ⟨⟨hraw, hdecode.1⟩, hdecode.2⟩
  · rintro ⟨⟨hraw, hwithin⟩, rfl⟩
    refine ⟨_, ⟨hraw, rfl⟩, ?_⟩
    rw [hcolumns, htexts]
    exact ⟨hwithin, rfl⟩

end

/-! ### When the segments give the rows back -/

/-- **When the segments give the rows back**: where recovery and the decoder take the row groups,
and only there. -/
theorem rollJsonlAppendSegments_recovered [Crc32Fast] [SerdeJson] {schema : Schema}
    {input : BufRead} {options : BlockOptions} {rolling : RollingOptions}
    {segments : List (List UInt8)}
    (h : rollJsonlAppendSegments input schema options rolling = .ok segments) :
    ∃ lines rows, InputLines options.maxUncompressedBytesPerBlock input.bytes lines ∧
      acceptLines options.maxUncompressedBytesPerBlock lines = .ok rows ∧
      ((∀ groups ∈ rollRows (groupFrameLen schema) options rolling rows, ∀ group ∈ groups,
          PayloadWithin schema group) →
        ∃ objects, rows.mapM rowObject = .ok objects ∧
          ((∀ segment ∈ segments, Recovers segment) ∧
              recoveredRows schema segments = .ok (renderRows schema.columns objects) ↔
            ∀ groups ∈ rollRows (groupFrameLen schema) options rolling rows,
              SegmentLimits schema groups)) := by
  obtain ⟨lines, rows, hinput, hrows, -, -, hsegments⟩ := rollJsonlAppendSegments_ok h
  refine ⟨lines, rows, hinput, hrows, fun hwithin => ?_⟩
  have hflat := flatten_rollRows (groupFrameLen schema) options rolling rows
  have hne := @rollRows_ne_nil (groupFrameLen schema) options rolling rows
  have hisRow : ∀ groups ∈ rollRows (groupFrameLen schema) options rolling rows,
      ∀ group ∈ groups, ∀ row ∈ group, IsRow options.maxUncompressedBytesPerBlock row := by
    intro groups hgroups group hgroup row hrow
    refine isRow_of_acceptLines hrows row ?_
    rw [← hflat]
    exact List.mem_flatten.2 ⟨group, List.mem_flatten.2 ⟨groups, hgroups, hgroup⟩, hrow⟩
  have hmax : ∀ groups ∈ rollRows (groupFrameLen schema) options rolling rows, ∀ segment blocks,
      IsSegment schema groups segment blocks →
        ∀ block ∈ blocks, block.payload.length ≤ maxEncodedBlockBytes :=
    fun groups hgroups _ _ hsegment => hsegment.encoded.payload_le (hwithin groups hgroups)
  generalize rollRows (groupFrameLen schema) options rolling rows = segmentGroups at *
  have hparts : List.Forall₂ (fun groups segment => ∃ objects,
      (List.flatten groups : List String).mapM rowObject = .ok objects ∧ ∀ text,
        segmentRows schema segment = .ok text ↔
          SegmentLimits schema groups ∧ text = renderRows schema.columns objects)
      segmentGroups segments := by
    refine List.forall₂_iff_get.2 ⟨hsegments.length_eq, fun i hi hi' => ?_⟩
    obtain ⟨blocks, hsegment⟩ := (List.forall₂_iff_get.1 hsegments).2 i hi hi'
    have hmem := List.get_mem segmentGroups ⟨i, hi⟩
    exact hsegment.segmentRows (hisRow _ hmem) (hmax _ hmem _ _ hsegment)
  obtain ⟨objects, hobjects, htext⟩ := exists_decoded hparts
  rw [List.flatMap_def, ← List.flatten_flatten, hflat] at hobjects
  refine ⟨objects, hobjects, ?_⟩
  rw [recoveredRows, htext]
  constructor
  · rintro ⟨-, hlimits, -⟩
    exact hlimits
  · intro hlimits
    refine ⟨fun segment hmem => ?_, hlimits, rfl⟩
    obtain ⟨groups, hgroups, blocks, hsegment⟩ := exists_of_forall₂_mem_right hsegments hmem
    refine hsegment.recovers (hmax groups hgroups _ _ hsegment) (hne groups hgroups) ?_
    rw [hsegment.encoded.raw_eq (hisRow groups hgroups)]
    exact (hlimits groups hgroups).raw_lt

section

open scoped CompactCore.Reference

/-- Two segments, and the rows of both. -/
theorem rollJsonlAppendSegments_recovered_two_rows : ∃ segments,
    rollJsonlAppendSegments idInput (Reference.idSchema .deltaVarintU64) ⟨1, 64⟩ ⟨2 ^ 20, 1⟩ =
        .ok segments ∧ segments.length = 2 ∧ (∀ segment ∈ segments, Recovers segment) ∧
      recoveredRows (Reference.idSchema .deltaVarintU64) segments = .ok Reference.idLines := by
  obtain ⟨segments, hroll, hlen⟩ := Reference.exists_ok
    (x := rollJsonlAppendSegments idInput (Reference.idSchema .deltaVarintU64) ⟨1, 64⟩ ⟨2 ^ 20, 1⟩)
    (fun segments => segments.length = 2) (by decide +kernel)
  refine ⟨segments, hroll, hlen, ?_⟩
  obtain ⟨lines, rows, hinput, hrows, hback⟩ := rollJsonlAppendSegments_recovered hroll
  rw [idInput_lines hinput] at hrows
  obtain rfl : ["\x7b\"id\":1\x7d\n", "\x7b\"id\":2\x7d\n"] = rows := Except.ok.inj hrows
  have hgroups : rollRows (groupFrameLen (Reference.idSchema .deltaVarintU64)) ⟨1, 64⟩ ⟨2 ^ 20, 1⟩
      ["\x7b\"id\":1\x7d\n", "\x7b\"id\":2\x7d\n"] =
        [[["\x7b\"id\":1\x7d\n"]], [["\x7b\"id\":2\x7d\n"]]] := by decide +kernel
  rw [hgroups] at hback
  obtain ⟨objects, hobjects, hiff⟩ := hback (by decide +kernel)
  obtain rfl : Reference.idRows = objects := Except.ok.inj hobjects
  exact hiff.2 (by decide +kernel)

end

/-! ### A column that is too long -/

section

open Reference.Texts
open scoped CompactCore.Reference.Texts

/-- A row of the table of empty strings. -/
def textRowLine : String := textLine ++ "\n"

theorem textRowLine_isRow {maxRowLen : ℕ} (h : 9 ≤ maxRowLen) : IsRow maxRowLen textRowLine where
  line := ⟨textLine, rfl, by decide, by decide, by decide⟩
  size := h

theorem size_textRowLine : textRowLine.utf8ByteSize = 9 := rfl

theorem sum_texts (n : ℕ) :
    ((List.replicate n textRowLine).map String.utf8ByteSize).sum = 9 * n := by
  induction n with
  | zero => rfl
  | succ n ih =>
      rw [List.replicate_succ, List.map_cons, List.sum_cons, ih, size_textRowLine]
      omega

theorem mapM_rowObject_texts (n : ℕ) :
    (List.replicate n textRowLine).mapM rowObject = .ok (List.replicate n textRow) := by
  have hrow : rowObject textRowLine = .ok textRow := rfl
  induction n with
  | zero => rfl
  | succ n ih =>
      rw [List.replicate_succ, List.mapM_cons, hrow, ih]
      rfl

theorem isRow_texts {maxRowLen n : ℕ} (h : 9 ≤ maxRowLen) :
    ∀ row ∈ List.replicate n textRowLine, IsRow maxRowLen row := by
  intro row hmem
  rw [List.eq_of_mem_replicate hmem]
  exact textRowLine_isRow h

/-- The parsed rows of the table. -/
theorem parseRows_texts (n : ℕ) :
    parseRows (String.join (List.replicate n textRowLine)) = .ok (List.replicate n textRow) :=
  (parseRows_join (isRow_texts (le_refl 9))).trans (mapM_rowObject_texts n)

/-- The stored strings of the table are a byte each. -/
theorem lenPrefixed_texts (n : ℕ) :
    (columnStrings ⟨"s", .string, .rle, false⟩ (List.replicate n textRow)).flatMap
      Strings.lenPrefixed = List.replicate n 0 := by
  have hempty : Strings.lenPrefixed "" = [0] := by decide +kernel
  have hrow : (textRow.get "s").bind Value.asStr = some "" := rfl
  induction n with
  | zero => rfl
  | succ n ih =>
      rw [List.replicate_succ, List.replicate_succ, ← ih, columnStrings, List.filterMap_cons, hrow,
        List.flatMap_cons, hempty]
      rfl

/-- The table is encoded at any number of rows, and takes little room. -/
theorem exists_encodeJsonlRowGroup_texts {n : ℕ} (hn : n < 2 ^ 60) :
    ∃ group, encodeJsonlRowGroup (String.join (List.replicate n textRowLine)) textSchema =
        .ok group ∧ group.rowCount = n ∧ group.rawBytes = 9 * n ∧
      255 * group.payload.length ≤ 2 * n + 8000 := by
  have hparse := parseRows_texts n
  have hcols : textSchema.supportedColumns = .ok textSchema.columns := rfl
  have hmem : ∀ rows, parseRows (String.join (List.replicate n textRowLine)) = .ok rows →
      InMemory textSchema.columns rows := by
    intro rows hrows
    rw [hparse] at hrows
    cases hrows
    refine ⟨by rwa [List.length_replicate], fun column hcolumn => ?_⟩
    obtain rfl := List.mem_singleton.1 hcolumn
    rw [lenPrefixed_texts, List.length_replicate]
    omega
  have hencodable : Encodable textSchema.columns (List.replicate n textRow) := by
    constructor
    · intro row hrow column hcolumn
      obtain rfl := List.mem_singleton.1 hcolumn
      obtain rfl := List.eq_of_mem_replicate hrow
      exact ⟨_, rfl, "", rfl⟩
    · intro column hcolumn hnumber
      obtain rfl := List.mem_singleton.1 hcolumn
      cases hnumber
  have hnames : ∀ column ∈ textSchema.columns, (asBytes column.name).length ≤ 65535 := by
    intro column hcolumn
    obtain rfl := List.mem_singleton.1 hcolumn
    decide
  obtain ⟨group, hgroup⟩ := (exists_encodeJsonlRowGroup hcols hmem).2
    ⟨⟨_, hparse, hencodable⟩, hnames, by decide⟩
  obtain ⟨hcount, hraw⟩ := encodeJsonlRowGroup_counts hgroup (isRow_texts (le_refl 9))
  refine ⟨group, hgroup, hcount.trans List.length_replicate, hraw.trans (sum_texts n), ?_⟩
  -- the only column holds the runs of its strings
  obtain ⟨-, -, values, payload, hvalues, hencode, hlength⟩ :=
    encodeJsonlRowGroup_oneColumn rfl hparse hgroup
  have hname : (asBytes "s").length = 1 := rfl
  dsimp only at hlength
  rw [hname] at hlength
  cases values with
  | u64 values => exact absurd hvalues.1 (by decide)
  | string values =>
      have hpayload : payload = Rle.encodeRle (List.replicate n 0) := by
        have hstored := lenPrefixed_texts n
        rw [columnStrings_eq hvalues.2] at hstored
        have hruns : encodeStringValues values = .ok payload := hencode
        simp only [encodeStringValues, bind_ok, Strings.encodeAll_ok, pure_ok] at hruns
        obtain ⟨_, ⟨-, rfl⟩, rfl⟩ := hruns
        rw [hstored]
      have hruns := Rle.length_encodeRle_replicate 0 n
      rw [← hpayload] at hruns
      omega

/-! ### The run -/

/-- A writer that has taken in the rows of the table. -/
def textWriter (n : ℕ) : JsonlBlockWriter :=
  { JsonlBlockWriter.newWithState writeStreamHeader 0 0 (UInt64.ofNat streamHeaderLen) with
    current := .ofRows (List.replicate n textRowLine) }

/-- The state behind `n` rows. -/
def textState : ℕ → RollState
  | 0 => .start
  | n + 1 => ⟨[], some (textWriter (n + 1))⟩

theorem textWriter_wrote (n : ℕ) :
    (textWriter n).Wrote textSchema writeStreamHeader [] ⟨[], List.replicate n textRowLine⟩ [] where
  encoded := .nil
  writer_eq := rfl
  current_eq := rfl
  index_eq := rfl
  row_eq := rfl
  offset_eq := rfl
  metadata_eq := rfl
  bounded := Or.inl rfl

theorem acceptLine_textRowLine {maxRowLen : ℕ} (h : 9 ≤ maxRowLen) :
    acceptLine maxRowLen textRowLine = .ok (some textRowLine) := by
  have hblank : isBlank textRowLine = false := by decide
  have hnormal : normalizeJsonlLine textRowLine = .ok textRowLine := rfl
  simp only [acceptLine, hblank, hnormal, Bool.false_eq_true, if_false, bind_ok, Except.ok.injEq,
    failIf_ok, pure_ok]
  exact ⟨_, rfl, (), Nat.not_lt.2 (size_textRowLine.trans_le h), rfl⟩

/-- A row below the limits of the options is buffered. -/
theorem writeJsonlLine_text {options : BlockOptions} {n : ℕ}
    (hrows : n + 1 < options.maxRowsPerBlock)
    (hbytes : 9 * n + 9 < options.maxUncompressedBytesPerBlock) :
    JsonlBlockWriter.writeJsonlLine textSchema options textRowLine (textWriter n) =
      .ok () (textWriter (n + 1)) := by
  have haccept := @acceptLine_textRowLine options.maxUncompressedBytesPerBlock (by omega)
  have hcount (k : ℕ) : (textWriter k).current.rowCount = k := List.length_replicate
  have hraw (k : ℕ) : (textWriter k).current.rawBytes = 9 * k := sum_texts k
  have hreached : (textWriter (n + 1)).current.reachedLimit options = false := by
    rw [RowGroupBuffer.reachedLimit, Bool.or_eq_false_iff, decide_eq_false_iff_not,
      decide_eq_false_iff_not, hcount, hraw]
    omega
  have hexceeds : (textWriter n).current.wouldExceed textRowLine options = false := by
    rw [RowGroupBuffer.wouldExceed]
    split
    · rfl
    · rw [Bool.or_eq_false_iff, decide_eq_false_iff_not, decide_eq_false_iff_not, hcount, hraw,
        size_textRowLine]
      omega
  have hpush : (textWriter n).pushLine textRowLine = textWriter (n + 1) := by
    rw [JsonlBlockWriter.pushLine, textWriter, textWriter, RowGroupBuffer.pushLine_ofRows,
      List.replicate_succ']
  simp only [JsonlBlockWriter.writeJsonlLine, addLine, Method.bind_ok, Method.lift_ok]
  refine ⟨_, _, ⟨haccept, rfl⟩, addRow_ok.2 ⟨textWriter n, ?_, ?_⟩⟩
  · rw [flushIf_ok, hexceeds]
    rfl
  · rw [hpush, flushIf_ok, hreached]
    rfl

/-- A row below all limits goes to the open segment. -/
theorem rollLine_text {options : BlockOptions} {rolling : RollingOptions} {n : ℕ}
    (hrows : n + 1 < options.maxRowsPerBlock)
    (hbytes : 9 * n + 9 < options.maxUncompressedBytesPerBlock)
    (hblocks : 0 < rolling.maxBlocksPerSegment)
    (hsegment : streamHeaderLen < rolling.maxSegmentBytes) :
    RollState.rollLine textSchema options rolling textRowLine (textState n) =
      .ok () (textState (n + 1)) := by
  have hblank : ¬isBlank textRowLine = true := by decide
  have hwrite := writeJsonlLine_text hrows hbytes
  rw [RollState.rollLine, if_neg hblank, Method.bind_ok]
  refine ⟨(), textState n, ?_, ?_⟩
  · cases n with
    | zero => rfl
    | succ n =>
        have hfull : RollState.full rolling (textWriter (n + 1)) = false := by
          rw [RollState.full, Bool.or_eq_false_iff, decide_eq_false_iff_not,
            decide_eq_false_iff_not]
          exact ⟨Nat.not_le.2 hblocks, Nat.not_le.2 hsegment⟩
        simp only [RollState.finishFull, Method.bind_ok, Method.get_ok]
        refine ⟨_, _, ⟨rfl, rfl⟩, ?_⟩
        simp only [textState, hfull]
        rfl
  · have hopen : (textState n).openWriter options = .ok (textWriter n) := by
      cases n with
      | zero =>
          simp only [RollState.openWriter, textState, RollState.start, JsonlBlockWriter.new,
            bind_ok, BlockOptions.validate_ok, pure_ok]
          exact ⟨options, ⟨by omega, by omega, rfl⟩, rfl⟩
      | succ n => rfl
    simp only [RollState.writeLine, Method.bind_ok, Method.get_ok, Method.lift_ok, Method.exec_ok,
      Method.modify_ok]
    refine ⟨_, _, ⟨rfl, rfl⟩, _, _, ⟨hopen, rfl⟩, _, _, ⟨⟨(), hwrite⟩, rfl⟩, ?_⟩
    cases n <;> rfl

theorem forM_texts {options : BlockOptions} {rolling : RollingOptions} {n k j : ℕ}
    (hrows : n < options.maxRowsPerBlock) (hbytes : 9 * n < options.maxUncompressedBytesPerBlock)
    (hblocks : 0 < rolling.maxBlocksPerSegment)
    (hsegment : streamHeaderLen < rolling.maxSegmentBytes)
    (hle : j + k ≤ n) :
    (List.replicate k textRowLine).forM (RollState.rollLine textSchema options rolling)
      (textState j) = .ok () (textState (j + k)) := by
  induction k generalizing j with
  | zero => exact Method.forM_nil.2 rfl
  | succ k ih =>
      have hline := @rollLine_text options rolling j (by omega) (by omega) hblocks hsegment
      have hrest := ih (j := j + 1) (by omega)
      rw [Nat.add_right_comm] at hrest
      rw [List.replicate_succ]
      exact Method.forM_cons.2 ⟨_, hline, hrest⟩

/-- The table is rolled to one segment of little room. -/
theorem roll_texts {n : ℕ} (hpos : 0 < n) (hn : n < 2 ^ 32) :
    ∃ input options rolling segment blocks,
      rollJsonlAppendSegments input textSchema options rolling = .ok [segment] ∧
        IsSegment textSchema [List.replicate n textRowLine] segment blocks ∧
        255 * segment.length ≤ 2 * n + 30000 := by
  obtain ⟨group, hgroup, hcount, hraw, hlen⟩ := exists_encodeJsonlRowGroup_texts (n := n) (by omega)
  have hroom : (textWriter n).Room group := by
    have hindex : (textWriter n).blocksWritten.toNat = 0 := rfl
    have hrow : (textWriter n).rowsWritten.toNat = 0 := rfl
    have hoffset : (textWriter n).bytesWritten.toNat = 10 := rfl
    have hmax : 0 < maxStreamBlocks := by decide
    have hheader : frameHeaderLen + blockHeaderLen = 62 := rfl
    exact ⟨by omega, by omega, by omega, by omega⟩
  obtain ⟨w', hflush⟩ := JsonlBlockWriter.exists_flushBlock (w := textWriter n) hgroup hroom
  have hfinish : (textWriter n).finishWithoutFooter textSchema = .ok w'.writer := by
    simp only [JsonlBlockWriter.finishWithoutFooter, bind_ok, Method.exec_ok, pure_ok]
    exact ⟨w', ⟨(), hflush⟩, rfl⟩
  obtain ⟨blocks, hsegment⟩ := (textWriter_wrote n).segment hfinish
  have hcut : Cut.finish ⟨[], List.replicate n textRowLine⟩ = [List.replicate n textRowLine] := by
    have hne : List.replicate n textRowLine ≠ [] := by
      rw [Ne, List.replicate_eq_nil_iff]
      omega
    rw [Cut.finish, if_neg hne]
    rfl
  rw [hcut] at hsegment
  refine ⟨.cursor (asBytes (String.join (List.replicate n textRowLine))), ⟨n + 1, 9 * n + 9⟩,
    ⟨11, 1⟩, w'.writer, blocks, ?_, hsegment, ?_⟩
  · have hinput : InputLines (9 * n + 9) (BufRead.cursor (asBytes (String.join
        (List.replicate n textRowLine)))).bytes (List.replicate n textRowLine) := by
      rw [BufRead.bytes_cursor]
      refine inputLines_join ?_ ?_ ?_
      · rw [wordSize]
        omega
      · intro line hmem
        rw [List.eq_of_mem_replicate hmem]
        exact ⟨textLine, rfl, by decide +kernel⟩
      · intro line hmem
        rw [List.eq_of_mem_replicate hmem, size_textRowLine]
        omega
    have hloop := @forM_texts ⟨n + 1, 9 * n + 9⟩ ⟨11, 1⟩ n n 0 (Nat.lt_succ_self n)
      (Nat.lt_add_of_pos_right (by decide)) Nat.one_pos
      (Nat.lt_succ_self 10) (Nat.zero_add n).le
    rw [Nat.zero_add] at hloop
    simp only [rollJsonlAppendSegments, bind_ok, BlockOptions.validate_ok,
      RollingOptions.validate_ok, Method.exec_ok]
    refine ⟨_, ⟨Nat.succ_ne_zero _, Nat.succ_ne_zero _, rfl⟩, _, ⟨by decide, by decide, rfl⟩, _,
      ⟨(), forLines_ok.2 ⟨_, hinput, hloop⟩⟩, ?_⟩
    obtain ⟨m, rfl⟩ := Nat.exists_eq_succ_of_ne_zero hpos.ne'
    simp only [RollState.finish, textState, bind_ok, pure_ok]
    exact ⟨_, hfinish, rfl⟩
  · have hflat := hsegment.encoded.length_flat
    have hframe : groupFrameLen textSchema (List.replicate n textRowLine) =
        frameHeaderLen + (blockHeaderLen + group.payload.length) := by
      rw [groupFrameLen, hgroup]
    have hheader : frameHeaderLen + blockHeaderLen = 62 := rfl
    have hstart : streamHeaderLen = 10 := rfl
    rw [List.map_singleton, List.sum_singleton, hframe] at hflat
    rw [hsegment.segment_eq, length_header_append, streamEnd]
    omega

/-- **Rows that do not come back**: a segment that is recovered, with a block whose column has one
byte more than the decoder takes. -/
theorem rollJsonlAppendSegments_above_limit : ∃ input options rolling segment,
    rollJsonlAppendSegments input textSchema options rolling = .ok [segment] ∧
      segment.length ≤ maxEncodedBlockBytes ∧
      ∀ text, recoveredRows textSchema [segment] ≠ .ok text := by
  have hlt : maxDecodedBytes + 1 < 2 ^ 32 := by decide
  have hmax : 2 * (maxDecodedBytes + 1) + 30000 ≤ 255 * maxEncodedBlockBytes := by decide
  obtain ⟨n, hn⟩ : ∃ n, n = maxDecodedBytes + 1 := ⟨_, rfl⟩
  rw [← hn] at hlt hmax
  obtain ⟨input, options, rolling, segment, blocks, hroll, hsegment, hlen⟩ :=
    roll_texts (n := n) (hn ▸ Nat.succ_pos _) hlt
  refine ⟨input, options, rolling, segment, hroll, by omega, fun text htext => ?_⟩
  have hrows : ∀ rows ∈ [List.replicate n textRowLine], ∀ row ∈ rows, IsRow 9 row := by
    intro rows hmem
    rw [List.mem_singleton.1 hmem]
    exact isRow_texts (le_refl 9)
  have hpayload : ∀ rows ∈ [List.replicate n textRowLine], PayloadWithin textSchema rows := by
    intro rows hmem group hgroup
    obtain ⟨group', hgroup', -, -, hle⟩ := exists_encodeJsonlRowGroup_texts (n := n) (by omega)
    rw [List.mem_singleton.1 hmem, hgroup'] at hgroup
    cases hgroup
    have hheader : blockHeaderLen = 44 := rfl
    omega
  obtain ⟨objects, -, hdecode⟩ := hsegment.segmentRows hrows
    (hsegment.encoded.payload_le hpayload)
  simp only [recoveredRows, List.mapM_cons, List.mapM_nil, map_ok, bind_ok, pure_ok] at htext
  obtain ⟨_, ⟨first, hfirst, -⟩, -⟩ := htext
  have hwithin := ((hdecode first).1 hfirst).1.columns _ List.mem_cons_self
  have hrle :=
    hwithin _ (parseRows_texts n) ⟨"s", .string, .rle, false⟩ (List.mem_singleton.2 rfl) rfl
  rw [lenPrefixed_texts, List.length_replicate] at hrle
  omega

end

end CompactCore.Streaming
