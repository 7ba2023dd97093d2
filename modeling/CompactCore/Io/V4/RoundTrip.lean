/-
**The `CMP4` round trip.**

What the writer writes is read back: the row groups of a file stand where its index says, their
columns decode to the values of the rows that they were encoded from, and a scan renders these
rows in order.

Main definitions:

* `CompactCore.Io.V4.DecoderLimits` — rows that stay within the limits of the decoder.

Main results:

* `CompactCore.Io.V4.decodeFooterColumn_entry` — a chunk is found at its entry;
* `CompactCore.Io.V4.exists_table_encodes` — a row group decodes to the rows it was encoded from;
* `CompactCore.Io.V4.decodeJsonl_encodeJsonl` — **a file decodes to the rows that were encoded**.
-/

import CompactCore.Io.V4.File
import CompactCore.Io.V4.Scan
import CompactCore.Reference

set_option relaxedAutoImplicit false
set_option autoImplicit false

namespace CompactCore.Io.V4

open Wire CompactError Format Format.V3 Format.V4 Io.V3 Codecs.V3

/-! ### Chunks and their entries -/

/-- A chunk is found under its name. -/
theorem find?_chunkEntries {offset : ℕ} {before after : List EncodedColumnChunk}
    {chunk : EncodedColumnChunk}
    (hnodup : ((before ++ chunk :: after).map (·.metadata.name)).Nodup) :
    (chunkEntries offset (before ++ chunk :: after)).find? (·.name == chunk.metadata.name) =
      some (chunkEntry (offset + (before.flatMap chunkBytes).length) chunk) := by
  rw [List.map_append, List.nodup_append] at hnodup
  obtain ⟨-, -, hdisj⟩ := hnodup
  have hnone : (chunkEntries offset before).find? (·.name == chunk.metadata.name) = none := by
    rw [List.find?_eq_none]
    intro entry hentry heq
    have hname : entry.name ∈ before.map (·.metadata.name) := by
      rw [← names_chunkEntries offset]
      exact List.mem_map_of_mem hentry
    exact hdisj _ hname _ (by simp) (beq_iff_eq.1 heq)
  rw [chunkEntries_append, List.find?_append, hnone, Option.none_or, chunkEntries]
  exact List.find?_cons_of_pos (beq_iff_eq.2 rfl)

/-- **A chunk is found at its entry**: reading the column of an entry decodes the chunk. -/
theorem decodeFooterColumn_entry {data : List UInt8} {offset : ℕ} {chunk : EncodedColumnChunk}
    {rowGroup : RowGroupIndexEntry} {column : ColumnSchema} (hfit : Fits data)
    (hvalid : ChunkValid rowGroup.rowCount chunk) (hat : At data offset (chunkBytes chunk))
    (hschema : validateMetadataAgainstSchema chunk.metadata column rowGroup.rowCount.toNat =
      .ok ()) :
    decodeFooterColumn data rowGroup (chunkEntry offset chunk) column =
      decodeColumn chunk.metadata chunk.payload := by
  rw [chunkBytes, at_append, at_append, length_le32] at hat
  obtain ⟨-, hmeta, hpayload⟩ := hat
  have hle := hpayload.le
  have hword := hfit
  rw [Fits, wordSize] at hword
  have hfit' : Fits (metadataBytes chunk.metadata) := by
    rw [Fits, wordSize]
    omega
  have hslice : checkedSlice data (chunkEntry offset chunk).metadataOffset
      (chunkEntry offset chunk).metadataLen "cmp4 column metadata is truncated" =
        .ok (metadataBytes chunk.metadata) := by
    refine (checkedSlice_ok hfit).2 ⟨?_, ?_⟩
    · rw [chunkEntry, toNat_ofNat (by omega)]
      exact hmeta
    · rw [chunkEntry, toNat_ofNat (by omega)]
  have hslice' : checkedSlice data (chunkEntry offset chunk).payloadOffset
      (chunkEntry offset chunk).payloadLen "cmp4 column payload is truncated" =
        .ok chunk.payload := by
    refine (checkedSlice_ok hfit).2 ⟨?_, hvalid.payload.symm⟩
    rw [chunkEntry, toNat_ofNat (by omega)]
    exact hpayload
  have hdec := (decodeColumnMetadata_ok hfit').2 ⟨_, hvalid.encodes, List.prefix_rfl, rfl⟩
  have hmatch : validateFooterColumnMatchesMetadata (chunkEntry offset chunk) chunk.metadata =
      .ok () := by
    simp [validateFooterColumnMatchesMetadata, chunkEntry]
  simp only [decodeFooterColumn, hslice, hdec, tryUsize_eq, hschema, hmatch, hslice', bind,
    Except.bind, failIf, ne_eq, not_true_eq_false, ↓reduceIte]

/-! ### Row groups and their rows -/

/-- Rows that stay within the limits of the decoder, cut into row groups. -/
structure DecoderLimits (columns : List ColumnSchema) (parts : List (List Map)) : Prop where
  columns_le : columns.length ≤ maxCollectionEntries
  rowGroups_le : parts.length ≤ maxCollectionEntries
  rows_le : ∀ rows ∈ parts, rows.length ≤ maxDecodedValues
  stored_le : ∀ rows ∈ parts, ∀ column ∈ columns, ∀ chunk, encodeColumn column rows = .ok chunk →
    chunk.metadata.codec = .rle →
      ((columnStrings column rows).flatMap Strings.lenPrefixed).length ≤ maxDecodedBytes

section

variable [Crc32Fast] {file : List UInt8} {columns : List ColumnSchema}

/-- The column of a row group is read back. -/
theorem decodeSchemaColumn_entry {start : ℕ} {group : RowGroup} {rows : List Map}
    {before after : List EncodedColumnChunk} {chunk : EncodedColumnChunk} {column : ColumnSchema}
    (hfit : Fits file) (hwell : group.WellFormed) (hat : At file start group.bytes)
    (hcount : group.rowCount.toNat = rows.length) (hsplit : group.chunks = before ++ chunk :: after)
    (henc : encodeColumn column rows = .ok chunk) :
    decodeSchemaColumn file (group.entry start) column =
      decodeColumn chunk.metadata chunk.payload := by
  have hmem : chunk ∈ group.chunks := by simp [hsplit]
  have hvalid := hwell.chunks chunk hmem
  have hschema := validateMetadataAgainstSchema_encodeColumn henc
  have hname : chunk.metadata.name = column.name := by
    obtain ⟨codec, -, hexp⟩ := encodeColumn_explicit henc
    exact (encodeExplicit_describes hexp).name_eq
  have hfind : (group.entry start).columns.find? (·.name == column.name) =
      some (chunkEntry (start + rowGroupHeaderLen + (before.flatMap chunkBytes).length) chunk) := by
    rw [← hname]
    simp only [RowGroup.entry, hsplit]
    exact find?_chunkEntries (by rw [← hsplit]; exact hwell.nodup)
  have hchunk : At file (start + rowGroupHeaderLen + (before.flatMap chunkBytes).length)
      (chunkBytes chunk) := by
    rw [RowGroup.bytes, at_append, RowGroup.body, at_append, hsplit, List.flatMap_append,
      List.flatMap_cons, at_append, at_append, length_rowGroupHeader] at hat
    exact hat.1.2.2.1
  rw [decodeSchemaColumn, hfind]
  exact decodeFooterColumn_entry hfit hvalid hchunk (by
    rw [show (group.entry start).rowCount.toNat = rows.length from hcount]
    exact hschema)

omit [Crc32Fast] in
/-- The chunk of a column of a row group. -/
theorem exists_chunk {rows : List Map} {chunks : List EncodedColumnChunk}
    (h : List.Forall₂ (fun column chunk => encodeColumn column rows = .ok chunk) columns chunks)
    {column : ColumnSchema} (hcol : column ∈ columns) :
    ∃ before chunk after, chunks = before ++ chunk :: after ∧
      encodeColumn column rows = .ok chunk := by
  induction h with
  | nil => cases hcol
  | @cons c chunk columns chunks henc _ ih =>
      rcases List.mem_cons.1 hcol with rfl | hcol
      · exact ⟨[], chunk, chunks, rfl, henc⟩
      · obtain ⟨before, chunk', after, rfl, henc'⟩ := ih hcol
        exact ⟨chunk :: before, chunk', after, rfl, henc'⟩

/-- **A row group decodes to the rows it was encoded from.** -/
theorem exists_table_encodes {start : ℕ} {group : RowGroup} {rows : List Map}
    (hfit : Fits file) (hwell : group.WellFormed) (hat : At file start group.bytes)
    (hencodes : group.Encodes columns rows) (hmax : rows.length ≤ maxDecodedValues)
    (hstored : ∀ column ∈ columns, ∀ chunk, encodeColumn column rows = .ok chunk →
      chunk.metadata.codec = .rle →
        ((columnStrings column rows).flatMap Strings.lenPrefixed).length ≤ maxDecodedBytes) :
    ∃ table, Decodes file (group.entry start) columns table ∧
      ∀ column ∈ columns, (table column).Holds column rows := by
  have hcolumn : ∀ column ∈ columns, ∃ decoded,
      decodeSchemaColumn file (group.entry start) column = .ok decoded ∧
        decoded.Holds column rows := by
    intro column hcol
    obtain ⟨before, chunk, after, hsplit, henc⟩ := exists_chunk hencodes.encoded hcol
    have hfit' : Fits chunk.payload := by
      have hle := hat.le
      have hlen : chunk.payload.length ≤ group.bytes.length := by
        rw [RowGroup.length_bytes, RowGroup.body, hsplit, List.flatMap_append, List.flatMap_cons]
        simp only [List.length_append, length_chunkBytes]
        omega
      rw [Fits] at hfit ⊢
      omega
    obtain ⟨decoded, hdec, hholds⟩ := decodeColumn_encodeColumn henc hmax hfit'
      (hstored _ hcol _ henc)
    refine ⟨decoded, ?_, hholds⟩
    rw [decodeSchemaColumn_entry hfit hwell hat hencodes.rowCount_eq hsplit henc, hdec]
  refine ⟨fun column => (decodeSchemaColumn file (group.entry start) column).toOption.getD
    (.bool []), ⟨verifyRowGroup_entry hfit hwell hat true, ?_⟩, ?_⟩
  · intro column hcol
    obtain ⟨decoded, hdec, -⟩ := hcolumn column hcol
    rw [hdec]
    rfl
  · intro column hcol
    obtain ⟨decoded, hdec, hholds⟩ := hcolumn column hcol
    simp only [hdec]
    exact hholds

omit [Crc32Fast] in
/-- A table that holds the values of some rows is rendered as these rows. -/
theorem renderRows_table [SerdeJson] {rowGroup : RowGroupIndexEntry} {rows : List Map}
    {table : ColumnSchema → V3.DecodedColumn} (hnodup : (columns.map (·.name)).Nodup)
    (hcount : rowGroup.rowCount.toNat = rows.length)
    (hholds : ∀ column ∈ columns, (table column).Holds column rows) :
    renderRows columns (tableRows rowGroup columns table) = renderRows columns rows := by
  rw [renderRows, renderRows, tableRows, List.map_map, hcount]
  congr 1
  refine List.ext_getElem (by simp) fun i hi _ => ?_
  have hi' : i < rows.length := by simpa using hi
  have hrow : renderRow columns (rowAt columns table i) = renderRow columns rows[i] := by
    refine congrArg renderObject (List.map_congr_left fun column hcol => ?_)
    have hentries : (table column).entries = rows.map (valueOf column) := hholds column hcol
    rw [valueOf, rowAt_get hnodup hcol, hentries, List.getElem?_map, List.getElem?_eq_getElem hi']
    rfl
  simp only [List.getElem_map, List.getElem_range, Function.comp_apply, hrow]

/-! ### Files and their rows -/

/-- The row groups of a file have the tables of the rows they were encoded from. -/
theorem exists_tables_encodes [SerdeJson] {parts : List (List Map)}
    {groups done : List RowGroup} {offset : ℕ} (hfit : Fits file)
    (hnodup : (columns.map (·.name)).Nodup)
    (hchain : rowGroupLog.Chain done groups) (hat : At file offset (rowGroupLog.flat groups))
    (hencodes : List.Forall₂ (fun rows group => RowGroup.Encodes group columns rows) parts groups)
    (hrows : ∀ rows ∈ parts, rows.length ≤ maxDecodedValues)
    (hstored : ∀ rows ∈ parts, ∀ column ∈ columns, ∀ chunk, encodeColumn column rows = .ok chunk →
      chunk.metadata.codec = .rle →
        ((columnStrings column rows).flatMap Strings.lenPrefixed).length ≤ maxDecodedBytes) :
    ∃ tables, Tables file columns (indexEntries offset groups) tables ∧
      renderRows columns (groupsRows (indexEntries offset groups) columns tables).flatten =
        renderRows columns parts.flatten := by
  induction hencodes generalizing done offset with
  | nil => exact ⟨[], .nil, rfl⟩
  | @cons rows group parts groups hgroup _ ih =>
      obtain ⟨hvalid, hchain⟩ := hchain
      rw [LogFormat.flat_cons, at_append] at hat
      obtain ⟨table, htable, hholds⟩ := exists_table_encodes hfit hvalid.1 hat.1 hgroup
        (hrows rows List.mem_cons_self) (hstored rows List.mem_cons_self)
      obtain ⟨tables, htables, hrest⟩ := ih hchain hat.2
        (fun rows h => hrows rows (List.mem_cons_of_mem _ h))
        (fun rows h => hstored rows (List.mem_cons_of_mem _ h))
      refine ⟨table :: tables, .cons htable htables, ?_⟩
      have hsplit : groupsRows (indexEntries offset (group :: groups)) columns (table :: tables) =
          tableRows (group.entry offset) columns table ::
            groupsRows (indexEntries (offset + group.bytes.length) groups) columns tables := rfl
      rw [hsplit, List.flatten_cons, renderRows_append,
        renderRows_table hnodup hgroup.rowCount_eq hholds, List.flatten_cons, renderRows_append]
      exact congrArg _ hrest

/-- **A file decodes to the rows that were encoded**, and the strict checks accept it. -/
theorem decodeJsonl_encodeJsonl [SerdeJson] {input : String} {schema : Schema}
    {options : EncodeOptions} {rows : List Map} (hfit : Fits file)
    (h : encodeJsonl input schema options = .ok file) (hrows : parseRows input = .ok rows)
    (hlimits : DecoderLimits schema.columns (chunks options.rowGroupRows rows)) :
    decodeJsonl file schema = .ok (renderRows schema.columns rows) ∧
      ∃ footer, validateFile file = .ok footer ∧ inspectFooter file = .ok footer ∧
        footer.totalRowCount.toNat = rows.length := by
  obtain ⟨rows', groups, hschema, hsize, hrows', hwritten⟩ := encodeJsonl_ok hlimits.columns_le h
  rw [hrows] at hrows'
  cases hrows'
  obtain ⟨-, hne, hnodup⟩ := validateImplementedSchema_ok hschema
  obtain ⟨trailer, hfile⟩ := hwritten.footer
  have hbody : HasHeader (Format.V4.encodeEmptyHeader ++ rowGroupLog.flat groups) :=
    at_mid [] Format.V4.encodeEmptyHeader _
  have hwithin := indexOf_withinLimits hwritten.holds.1 (by
    rw [← hwritten.encodes.length_eq]
    exact hlimits.rowGroups_le)
  have hcheck := validateFile_log hfit hbody hwritten.holds
    (by rw [List.length_append]; rfl) hwithin hfile
  have htotal : (indexOf groups).totalRowCount.toNat = rows.length := by
    rw [indexOf, toNat_ofNat hwritten.rows_lt, groupRows_eq hwritten.encodes, flatten_chunks hsize]
  refine ⟨?_, indexOf groups, hcheck.1, hcheck.2, htotal⟩
  -- the file is the body with bytes behind it
  obtain ⟨-, -, footer, -, -, -, hsplit⟩ := appendFooter_ok.1 hfile
  have hfooter := (decodeFooter_ok hfit).2 ⟨hwithin, _, trailer, hfile⟩
  have hheader : HasHeader file := by
    rw [hsplit]
    exact hbody.append_right _
  have hlog : rowGroupLog.Holds file fileHeaderLen groups := by
    rw [hsplit]
    exact hwritten.holds.append_right _
  obtain ⟨tables, htables, hrender⟩ := exists_tables_encodes hfit hnodup hlog.1 hlog.2
    hwritten.encodes hlimits.rows_le hlimits.stored_le
  have hopen : Opened file schema (indexOf groups) :=
    ⟨hschema, ⟨_, decodeHeader_empty.2 ⟨hheader, rfl⟩⟩, hfooter⟩
  have hall : ∀ p, (none : Option Predicate) = some p → p.On schema.columns := fun _ h => by cases h
  obtain ⟨result, hresult, hjsonl, -⟩ := scanJsonl_ok hopen htables hall List.nodup_nil (by simp)
  have hkeep : ∀ rows : List Map, rows.filter (selects none) = rows := fun rows =>
    List.filter_eq_self.2 fun _ _ => rfl
  simp only [decodeJsonl, hresult, bind_ok, Except.ok.injEq, exists_eq_left', pure_ok]
  rw [hjsonl, hkeep, ← flatten_chunks hsize rows]
  exact hrender

end

open scoped CompactCore.Reference

/-- Two rows, in row groups of one row. -/
theorem decodeJsonl_encodeJsonl_two_rows : ∃ file,
    encodeJsonl Reference.idLines (Reference.idSchema .auto) ⟨1⟩ = .ok file ∧
      decodeJsonl file (Reference.idSchema .auto) =
        .ok (renderRows (Reference.idSchema .auto).columns Reference.idRows) ∧
      ∃ footer, validateFile file = .ok footer ∧ inspectFooter file = .ok footer ∧
        footer.totalRowCount.toNat = 2 := by
  obtain ⟨file, hencode, hfit⟩ := Reference.exists_ok
    (x := encodeJsonl Reference.idLines (Reference.idSchema .auto) ⟨1⟩) Fits (by decide +kernel)
  have hparts : chunks 1 Reference.idRows = [Reference.idRows.take 1, Reference.idRows.drop 1] := by
    rw [chunks, dif_neg (by decide), chunks, dif_neg (by decide), chunks, dif_pos (by decide)]
    rfl
  refine ⟨file, hencode, decodeJsonl_encodeJsonl hfit hencode rfl ⟨by decide, ?_, ?_, ?_⟩⟩
  · rw [hparts]
    decide
  · rw [hparts]
    decide
  · -- a column of numbers holds no strings
    rw [hparts]
    intro rows hrows column hcolumn _ _ _
    have hsmall : ∀ rows ∈ [Reference.idRows.take 1, Reference.idRows.drop 1],
        ∀ column ∈ (Reference.idSchema .auto).columns,
          ((columnStrings column rows).flatMap Strings.lenPrefixed).length ≤ maxDecodedBytes := by
      decide +kernel
    exact hsmall rows hrows column hcolumn

end CompactCore.Io.V4
