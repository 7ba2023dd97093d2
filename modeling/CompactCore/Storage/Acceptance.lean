/-
**What is decoded validates.**

Decoding and validation go through the same bytes with loops of their own.  The decoders know the
schema and render rows; validation knows neither.  Still every file that decodes under some schema
validates, and validation counts the lines and the bytes of the text that was rendered.

Main definitions:

* `CompactCore.Storage.ReportsLines` — a report counts the lines of a text.

Main results:

* `CompactCore.Io.V3.inspectJsonl_decoded` — a `CMP3` file that decodes can be inspected;
* `CompactCore.Streaming.inspectJsonlStream_decoded` — so can a stream;
* `CompactCore.Storage.validate_decoded` — **validation accepts what the decoders accept**.
-/

import CompactCore.Io.V3.RoundTrip
import CompactCore.Storage
import CompactCore.Streaming.RoundTrip

set_option relaxedAutoImplicit false
set_option autoImplicit false

namespace CompactCore

open Wire CompactError

/-! ### `CMP3` files -/

namespace Io.V3

open Format Format.V3 Streaming

variable {data : List UInt8} {c c' : ℕ}

/-- A column that is read can be inspected, and takes more than its length field. -/
theorem inspectColumn_read {rowCount : UInt64} {column : ColumnSchema} {decoded : DecodedColumn}
    (hfit : Fits data) (h : readColumn rowCount.toNat column data c = .ok (decoded, c')) :
    (∃ inspect, inspectColumn rowCount data c = .ok (inspect, c')) ∧ c + 4 ≤ c' := by
  simp only [readColumn, readBytes, Reader.bind_ok, readUInt32_ok hfit, readExact_ok hfit,
    Reader.lift_ok, failIf_ok, not_not, tryUsize_eq, Except.ok.injEq] at h
  obtain ⟨metadataLen, _, ⟨hlen, rfl⟩, bytes, _, ⟨hbytes, hlen₁, rfl⟩, ⟨metadata, consumed⟩, _,
    ⟨hmetadata, rfl⟩, _, _, ⟨rfl, rfl⟩, _, _, ⟨hschema, rfl⟩, payloadLen, _, ⟨rfl, rfl⟩, payload, _,
    ⟨hpayload, hlen₂, rfl⟩, hdecode, rfl⟩ := h
  have hcount : metadata.valueCount = rowCount := by
    simp only [validateMetadataAgainstSchema, bind_ok, failIf_ok, not_not, tryU64_ok] at hschema
    obtain ⟨_, -, rows, hrows, hcount⟩ := hschema
    rw [hcount, ← UInt64.toNat_inj, hrows]
  -- the decoder has checked the statistics as the inspector does
  simp only [decodeColumn, bind_ok] at hdecode
  obtain ⟨_, hvalid, -⟩ := hdecode
  obtain ⟨statistics, hstatistics⟩ : ∃ statistics,
      Statistics.decode metadata.statisticsMetadata = .ok statistics := by
    simp only [validateStatistics, bind_ok] at hvalid
    obtain ⟨statistics, hstatistics, -⟩ := hvalid
    exact ⟨statistics, hstatistics⟩
  refine ⟨⟨⟨metadata, statistics⟩, ?_⟩, by omega⟩
  simp only [inspectColumn, readBytes, Reader.bind_ok, readUInt32_ok hfit, readExact_ok hfit,
    Reader.lift_ok, failIf_ok, not_not, tryUsize_eq, Except.ok.injEq, Reader.pure_ok]
  exact ⟨metadataLen, _, ⟨hlen, rfl⟩, bytes, _, ⟨hbytes, hlen₁, rfl⟩, (metadata, bytes.length), _,
    ⟨hmetadata, rfl⟩, (), _, ⟨rfl, rfl⟩, (), _, ⟨hcount, rfl⟩, statistics, _, ⟨hstatistics, rfl⟩,
    (), _, ⟨hvalid, rfl⟩, _, _, ⟨rfl, rfl⟩, payload, _, ⟨hpayload, hlen₂, rfl⟩, rfl, rfl⟩

theorem inspectColumns_read {rowCount : UInt64} {columns : List ColumnSchema}
    {decoded : List DecodedColumn} (hfit : Fits data)
    (h : readColumns rowCount.toNat columns data c = .ok (decoded, c')) :
    (∃ inspects, Reader.repeatRead (inspectColumn rowCount) columns.length data c =
      .ok (inspects, c')) ∧ c + columns.length * 4 ≤ c' := by
  induction columns generalizing c decoded with
  | nil =>
      rw [readColumns, Reader.pure_ok] at h
      obtain ⟨-, rfl⟩ := h
      exact ⟨⟨[], Reader.pure_ok.2 ⟨rfl, rfl⟩⟩, by simp⟩
  | cons column columns ih =>
      simp only [readColumns, Reader.bind_ok, Reader.pure_ok] at h
      obtain ⟨first, next, hfirst, rest, _, hrest, -, rfl⟩ := h
      obtain ⟨⟨inspect, hinspect⟩, hle⟩ := inspectColumn_read hfit hfirst
      obtain ⟨⟨inspects, hinspects⟩, hle'⟩ := ih hrest
      refine ⟨⟨inspect :: inspects, ?_⟩, ?_⟩
      · simp only [List.length_cons, Reader.repeatRead, Reader.bind_ok, Reader.pure_ok]
        exact ⟨inspect, next, hinspect, inspects, _, hinspects, rfl, rfl⟩
      · rw [List.length_cons]
        omega

/-- A row group that is read can be inspected. -/
theorem inspectRowGroup_read {columns : List ColumnSchema} {n : ℕ} {decoded : List DecodedColumn}
    (hfit : Fits data) (hmax : columns.length ≤ maxCollectionEntries)
    (h : readRowGroup columns data 0 = .ok ((n, decoded), data.length)) :
    ∃ rowCount rawSize inspects, rowCount.toNat = n ∧
      inspectRowGroup data 0 = .ok ((rowCount, rawSize, inspects), data.length) := by
  simp only [readRowGroup, readBytes, Reader.bind_ok, readExact_ok hfit, readUInt64_ok hfit,
    readUInt32_ok hfit, Reader.lift_ok, failIf_ok, not_not, tryUsize_eq, Except.ok.injEq,
    Reader.pure_ok, Prod.mk.injEq] at h
  obtain ⟨magic, _, ⟨h₀, hmagic, rfl⟩, _, _, ⟨rfl, rfl⟩, blockIndex, _, ⟨h₁, rfl⟩, _, _, ⟨-, rfl⟩,
    firstRowIndex, _, ⟨h₂, rfl⟩, _, _, ⟨-, rfl⟩, rowCount, _, ⟨h₃, rfl⟩, _, _, ⟨rfl, rfl⟩, rawSize,
    _, ⟨h₄, rfl⟩, columnCount, _, ⟨h₅, rfl⟩, _, _, ⟨hcount, rfl⟩, _, _, hcolumns, ⟨rfl, -⟩, rfl⟩ :=
      h
  obtain ⟨⟨inspects, hinspects⟩, hle⟩ := inspectColumns_read hfit hcolumns
  refine ⟨rowCount, rawSize, inspects, rfl, ?_⟩
  simp only [inspectRowGroup, readBytes, Reader.bind_ok, readExact_ok hfit, readUInt64_ok hfit,
    readUInt32_ok hfit, Reader.lift_ok, failIf_ok, not_not, not_or, not_lt, Reader.remaining_ok,
    Reader.pure_ok, Prod.mk.injEq]
  refine ⟨rowGroupMagic, _, ⟨h₀, rfl, rfl⟩, (), _, ⟨rfl, rfl⟩, blockIndex, _, ⟨h₁, rfl⟩,
    firstRowIndex, _, ⟨h₂, rfl⟩, rowCount, _, ⟨h₃, rfl⟩, rawSize, _, ⟨h₄, rfl⟩, columnCount, _,
    ⟨h₅, rfl⟩, _, _, ⟨rfl, rfl⟩, (), _, ⟨⟨?_, ?_⟩, rfl⟩, inspects, _, ?_, ⟨rfl, rfl, rfl⟩, rfl⟩
  · rwa [hcount]
  · rw [hcount, Nat.le_div_iff_mul_le (by decide)]
    omega
  · rwa [hcount]

/-- The text of some columns has a line for every row. -/
theorem renderDecodedRows_lines [SerdeJson] {columns : List ColumnSchema}
    {decoded : List DecodedColumn} {rowCount : ℕ} {text : String}
    (h : renderDecodedRows columns decoded rowCount = .ok text) :
    ∃ objects, objects.length = rowCount ∧ text = objectLines objects := by
  have hlines := foldlM_invariant
    (P := fun (done : List ℕ) (out : String) =>
      ∃ objects, objects.length = done.length ∧ out = objectLines objects)
    ?_ ⟨[], rfl, rfl⟩ h
  · rwa [List.length_range] at hlines
  · rintro done i out out' ⟨objects, hlen, rfl⟩ hstep
    simp only [bind_ok, pure_ok] at hstep
    obtain ⟨members, -, rfl⟩ := hstep
    refine ⟨objects ++ [members], by simp [hlen], ?_⟩
    rw [objectLines_append, String.append_assoc]
    simp [objectLines]

/-- **A file that decodes can be inspected**, and has as many rows as its text has lines. -/
theorem inspectJsonl_decoded [Crc32Fast] [SerdeJson] {schema : Schema} {text : String}
    (hfit : Fits data) (hmax : schema.columns.length ≤ maxCollectionEntries)
    (h : decodeJsonl data schema = .ok text) :
    At data 0 encodeEmptyHeader ∧ ∃ report objects, inspectJsonl data = .ok report ∧
      objects.length = report.rowCount.toNat ∧ text = objectLines objects := by
  simp only [decodeJsonl, bind_ok, failIf_ok, not_not, Prod.exists] at h
  obtain ⟨columns, hschema, header, hheader, _, hpayload, _, hlen, _, hsum, n, decoded, cursor,
    hread, _, rfl, hrender⟩ := h
  obtain ⟨rfl, -⟩ := validateImplementedSchema_ok hschema
  obtain ⟨hat, rfl⟩ := (readHeader_empty rfl).1 ⟨hheader, hpayload⟩
  have hfit' : Fits (data.drop fileHeaderLen) := lt_of_le_of_lt (by simp) hfit
  obtain ⟨rowCount, rawSize, inspects, rfl, hinspect⟩ :=
    inspectRowGroup_read (hfit'.take _) hmax hread
  obtain ⟨objects, hobjects, htext⟩ := renderDecodedRows_lines hrender
  refine ⟨hat, ⟨rowCount, rawSize, data.length, inspects⟩, objects, ?_, hobjects, htext⟩
  simp only [inspectJsonl, bind_ok, hheader, Except.ok.injEq, exists_eq_left', failIf_ok, not_not,
    Prod.exists, pure_ok]
  exact ⟨(), hlen, (), hsum, rowCount, rawSize, inspects, _, hinspect, (), rfl, rfl⟩

end Io.V3

/-! ### Streams -/

namespace Streaming

open Io

variable [Crc32Fast] [SerdeJson] {data : List UInt8} {schema : Schema}

/-- The text of a column block is objects, one to a line. -/
theorem decodeJsonl_lines {frame : List UInt8} {text : String}
    (h : decodeJsonl frame schema = .ok text) : ∃ objects, text = objectLines objects := by
  simp only [decodeJsonl, bind_ok, pure_ok] at h
  obtain ⟨columns, -, outer, -, _, -, decoded, -, rfl⟩ := h
  refine ⟨(List.range ((decoded.head?.map fun column => column.values.len).getD 0)).map fun i =>
    decoded.map fun column => (column.name, column.values.valueAt i), ?_⟩
  rw [objectLines, List.map_map, String.join, List.foldl_map]
  simp only [String.append_assoc]
  rfl

/-- The text of a block has the rows and the bytes that the block declares. -/
theorem decodeBlock_lines (hline : OneLine) {block : Block} {text : String}
    (h : decodeBlock schema block.parsed = .ok text) :
    ∃ objects, text = objectLines objects ∧ objects.length = block.rowCount.toNat ∧
      (asBytes text).length = block.rawSize.toNat := by
  simp only [decodeBlock, bind_ok, failIf_ok, not_not, pure_ok] at h
  obtain ⟨_, htext, _, hrows, _, hraw, rfl⟩ := h
  obtain ⟨objects, rfl⟩ := decodeJsonl_lines htext
  rw [countJsonlRows_objectLines hline] at hrows
  exact ⟨objects, rfl, hrows, hraw⟩

/-- The texts of blocks have the rows and the bytes that the blocks declare. -/
theorem decodesTo_lines (hline : OneLine) {blocks : List Block} {texts : List String}
    (h : DecodesTo schema blocks texts) : ∃ objects, String.join texts = objectLines objects ∧
      objects.length = blockRows blocks ∧ (texts.flatMap asBytes).length = blockRaw blocks := by
  induction h with
  | nil => exact ⟨[], rfl, rfl, rfl⟩
  | @cons block text blocks texts htext _ ih =>
      obtain ⟨first, rfl, hrows, hraw⟩ := decodeBlock_lines hline htext
      obtain ⟨rest, hrest, hrows', hraw'⟩ := ih
      refine ⟨first ++ rest, ?_, ?_, ?_⟩
      · rw [String.join_cons, hrest, objectLines_append]
      · rw [List.length_append, hrows, hrows']
        simp [blockRows]
      · rw [List.flatMap_cons, List.length_append, hraw, hraw']
        simp [blockRaw]

/-- **A stream that decodes can be inspected**, and the inspector counts the lines and the bytes of
its text. -/
theorem inspectJsonlStream_decoded (hline : OneLine) {output : List UInt8} (hfit : Fits data)
    (hout : Fits output) (h : decodeJsonlStream data schema = .ok output) :
    At data 0 writeStreamHeader ∧ ∃ report objects, inspectJsonlStream data = .ok report ∧
      report.footerIndex.isSome = true ∧ output = asBytes (objectLines objects) ∧
      report.totalRows.toNat = objects.length ∧
      report.totalUncompressedSize.toNat = output.length ∧ report.blocks.length < 2 ^ 64 := by
  obtain ⟨blocks, texts, hstream, hrows, htexts, rfl⟩ := (decodeJsonlStream_ok hfit).1 h
  obtain ⟨objects, hobjects, hcount, hraw⟩ := decodesTo_lines hline htexts
  have hraw' : blockRaw blocks < 2 ^ 64 := hraw ▸ hout
  have hblocks : (inspectOf blocks true).blocks.length < 2 ^ 64 := by
    have hle := hstream.length_le rfl
    have hmax : maxStreamBlocks < 2 ^ 64 := by decide
    rw [inspectOf, length_metadataFrom]
    omega
  refine ⟨hstream.header, inspectOf blocks true, objects,
    (inspectJsonlStream_ok hfit).2 ⟨blocks, true, hstream, hrows, hraw', rfl⟩, rfl, ?_, ?_, ?_,
    hblocks⟩
  · rw [← hobjects, asBytes_join]
  · rw [inspectOf, toNat_ofNat hrows, hcount]
  · rw [inspectOf, toNat_ofNat hraw', hraw]

end Streaming

/-! ### Validation -/

namespace Storage

open Streaming

/-- A report counts the lines of a text. -/
def ReportsLines (report : ValidationReport) (text : String) : Prop :=
  ∃ rows : UInt64, report.totalRows = some rows ∧ rows.toNat = (lines text).length

theorem detect_columns {data : List UInt8} (h : At data 0 Format.V3.encodeEmptyHeader) :
    detect data = .ok .v3 := by
  have hheader : At data 0 ((magicV3 ++ [versionV3]) ++ ([0] ++ le32 0)) := h
  exact detect_ok.2 (at_append.1 hheader).1

variable [Crc32Fast]

/-- What validation reports of a file of columns. -/
theorem validate_columns {data : List UInt8} {report : Io.V3.Inspect} (hfit : Fits data)
    (hdetect : detect data = .ok .v3) (h : Io.V3.inspectJsonl data = .ok report) :
    validate data = .ok ⟨.v3, UInt64.ofNat data.length, 1, some report.rowCount, none⟩ := by
  simp only [validate, negotiate_default, hdetect, validateAs, h, bind_ok, Except.ok.injEq,
    exists_eq_left', tryU64_ok, pure_ok, Prod.exists]
  exact ⟨_, toNat_ofNat hfit, _, _, _, rfl, rfl⟩

/-- **Validation accepts what the decoders accept**, and counts the lines of the text.  The
inspection of a stream also counts its bytes. -/
theorem validate_decoded [SerdeJson] (hline : OneLine) (schema : Schema) {data : List UInt8}
    (hfit : Fits data) :
    (∀ output, decodeJsonlStream data schema = .ok output → Fits output →
      ∃ text report inspect, output = asBytes text ∧ validate data = .ok report ∧
        report.hasFooterIndex = some true ∧ ReportsLines report text ∧
        inspectJsonlStream data = .ok inspect ∧
        inspect.totalUncompressedSize.toNat = output.length) ∧
    ∀ text, Io.V3.decodeJsonl data schema = .ok text →
      schema.columns.length ≤ maxCollectionEntries →
        ∃ report, validate data = .ok report ∧ ReportsLines report text := by
  constructor
  · intro output hdecode hout
    obtain ⟨hheader, inspect, objects, hinspect, hsealed, rfl, hrows, hraw, hcount⟩ :=
      inspectJsonlStream_decoded hline hfit hout hdecode
    refine ⟨objectLines objects, _, inspect, rfl,
      validate_stream hfit (detect_stream hheader) hinspect hcount, by rw [hsealed],
      ⟨inspect.totalRows, rfl, ?_⟩, hinspect, hraw⟩
    rw [lines_objectLines hline, List.length_map, hrows]
  · intro text hdecode hmax
    obtain ⟨hheader, inspect, objects, hinspect, hrows, rfl⟩ :=
      Io.V3.inspectJsonl_decoded hfit hmax hdecode
    refine ⟨_, validate_columns hfit (detect_columns hheader) hinspect,
      ⟨inspect.rowCount, rfl, ?_⟩⟩
    rw [lines_objectLines hline, List.length_map, hrows]

end Storage

/-! ### A stream of two rows and a file of two rows -/

namespace Storage

open scoped CompactCore.Reference
open Streaming

set_option maxRecDepth 8192 in
theorem validate_decoded_two_rows :
    (∃ stream report text, encodeJsonlStream ⟨[asBytes Reference.idLines], by decide +kernel⟩ []
        (Reference.idSchema .deltaVarintU64) ⟨8, 64⟩ = .ok stream ∧
      validate stream = .ok report ∧ report.hasFooterIndex = some true ∧
      ReportsLines report text) ∧
    ∃ file report text, Io.V3.encodeJsonl Reference.idLines (Reference.idSchema .auto) = .ok file ∧
      validate file = .ok report ∧ ReportsLines report text := by
  constructor
  · have hrun : ∃ stream, encodeJsonlStream ⟨[asBytes Reference.idLines], by decide +kernel⟩ []
        (Reference.idSchema .deltaVarintU64) ⟨8, 64⟩ = .ok stream ∧ Fits stream ∧
          (decodeJsonlStream stream (Reference.idSchema .deltaVarintU64)).toOption.any
            (fun output => Fits output) = true := Reference.exists_ok _ (by decide +kernel)
    obtain ⟨stream, hencode, hfit, hdecode⟩ := hrun
    obtain ⟨output, houtput, hout⟩ := Reference.exists_ok Fits hdecode
    obtain ⟨hstream, -⟩ :=
      validate_decoded oneLine_reference (Reference.idSchema .deltaVarintU64) hfit
    obtain ⟨text, report, inspect, -, hvalid, hsealed, hlines, -⟩ := hstream output houtput hout
    exact ⟨stream, report, text, hencode, hvalid, hsealed, hlines⟩
  · have hrun : ∃ file, Io.V3.encodeJsonl Reference.idLines (Reference.idSchema .auto) = .ok file ∧
        Fits file ∧ (Io.V3.decodeJsonl file (Reference.idSchema .auto)).toOption.isSome = true :=
      Reference.exists_ok _ (by decide +kernel)
    obtain ⟨file, hencode, hfit, hdecode⟩ := hrun
    obtain ⟨text, htext⟩ := Option.isSome_iff_exists.1 hdecode
    rw [toOption_eq_some] at htext
    obtain ⟨-, hfile⟩ := validate_decoded oneLine_reference (Reference.idSchema .auto) hfit
    obtain ⟨report, hvalid, hlines⟩ := hfile text htext (by decide)
    exact ⟨file, report, text, hencode, hvalid, hlines⟩

end Storage

end CompactCore
