/-
**Files that are converted.**

A file is converted by decoding it and encoding the text again, in another format, with other
options or with other codecs.  What a decoder gives is canonical: its rows are rendered as the same
text.  So nothing is lost on the way, whatever the formats are; and a stream of such a text always
reads back, although not every stream does.

Main definitions:

* `CompactCore.Storage.Decodes`, `CompactCore.Storage.Encodes` — what the decoders and the encoders
  of all formats do;
* `CompactCore.Storage.Converted` — decoding a file and encoding its text.

Main results:

* `CompactCore.Io.renderRows_objectLines` — the text of a table is canonical;
* `CompactCore.Storage.Decodes.unique` — all decoders that accept a file give the same text;
* `CompactCore.Storage.Encodes.decodes` — an encoded table is read back;
* `CompactCore.Storage.converted_decodes` — **no chain of conversions changes what a file says**.
-/

import CompactCore.Io.V4.RoundTrip
import CompactCore.Schema.Reading
import Mathlib.Logic.Relation

set_option relaxedAutoImplicit false
set_option autoImplicit false

namespace CompactCore

open Wire

/-! ### Line feeds -/

/-- Only the line feed is encoded with the byte of the line feed. -/
theorem eq_of_mem_utf8EncodeChar {c : Char} (h : 0x0a ∈ String.utf8EncodeChar c) : c = '\n' := by
  have hten : ∀ n : ℕ, (0x0a : UInt8) = UInt8.ofNat n → n % 256 = 10 := by
    intro n hn
    rw [← UInt8.toNat_inj, UInt8.toNat_ofNat'] at hn
    exact hn.symm
  -- all bytes of a longer encoding are at least 128
  have hval : c.val.toNat = 10 := by
    unfold String.utf8EncodeChar at h
    dsimp only at h
    split_ifs at h
    · simp only [List.mem_singleton] at h
      have := hten _ h
      omega
    · simp only [List.mem_cons, List.not_mem_nil, or_false] at h
      rcases h with h | h <;> have := hten _ h <;> omega
    · simp only [List.mem_cons, List.not_mem_nil, or_false] at h
      rcases h with h | h | h <;> have := hten _ h <;> omega
    · simp only [List.mem_cons, List.not_mem_nil, or_false] at h
      rcases h with h | h | h | h <;> have := hten _ h <;> omega
  exact Char.ext (UInt32.toNat_inj.1 hval)

theorem mem_of_mem_asBytes {s : String} (h : 0x0a ∈ asBytes s) : '\n' ∈ s.toList := by
  rw [asBytes, ← String.utf8Encode_toList, List.utf8Encode, List.data_toByteArray] at h
  obtain ⟨c, hc, hbyte⟩ := List.mem_flatMap.1 h
  exact eq_of_mem_utf8EncodeChar hbyte ▸ hc

/-! ### Canonical texts -/

namespace Io

open Streaming

section

variable [SerdeJson] {columns : List ColumnSchema}

omit [SerdeJson] in
/-- A row is what is rendered of any object with its values. -/
theorem IsRow.eq_values {row object : Map} (hnodup : (columns.map (·.name)).Nodup)
    (hrow : IsRow columns row) (hsame : ∀ key, object.get key = row.get key) :
    (columns.map fun column => (column.name, valueOf column object)) = row := by
  have hkeys : (row.map Prod.fst).Nodup := by rwa [hrow.keys]
  have hmembers : ∀ member ∈ row, object.get member.1 = some member.2 := by
    intro member hmember
    rw [hsame]
    exact Map.get_of_mem hkeys hmember
  clear hkeys hsame hnodup
  induction hrow with
  | nil => rfl
  | @cons column member columns row hmember _ ih =>
      obtain ⟨hfirst, hrest⟩ := List.forall_mem_cons.1 hmembers
      rw [List.map_cons, ih hrest, valueOf, ← hmember.1, hfirst]
      rfl

/-- **The text of a table is canonical**: what is read of it is rendered as the same text. -/
theorem renderRows_objectLines {rows objects : List Map} (hline : OneLine) (hread : ReadsBack)
    (hnodup : rows ≠ [] → (columns.map (·.name)).Nodup) (hrows : ∀ row ∈ rows, IsRow columns row)
    (hparse : parseRows (objectLines rows) = .ok objects) :
    renderRows columns objects = objectLines rows := by
  rcases eq_or_ne rows [] with rfl | hne
  · cases hparse
    rfl
  · replace hnodup := hnodup hne
    obtain ⟨objects', hparse', hsame⟩ := parseRows_objectLines hline hread hnodup hrows
    rw [hparse, Except.ok.injEq] at hparse'
    subst hparse'
    rw [renderRows_eq]
    congr 1
    clear hparse hne
    induction hsame with
    | nil => rfl
    | cons hget _ ih =>
        obtain ⟨hrow, hrows⟩ := List.forall_mem_cons.1 hrows
        rw [List.map_cons, hrow.eq_values hnodup hget, ih hrows]

end

end Io

/-! ### Streams of canonical texts -/

namespace Streaming

open Io

section

variable [SerdeJson] {columns : List ColumnSchema}

omit [SerdeJson] in
/-- Lines that are put together are cut again. -/
theorem cutLines_join {rows : List String}
    (h : ∀ row ∈ rows, ∃ line, row = line ++ "\n" ∧ '\n' ∉ line.toList) :
    cutLines (asBytes (String.join rows)) = rows.map asBytes := by
  induction rows with
  | nil =>
      rw [cutLines]
      exact dif_pos rfl
  | cons row rows ih =>
      obtain ⟨⟨line, hrow, hline⟩, hrows⟩ := List.forall_mem_cons.1 h
      have hbytes : asBytes row = asBytes line ++ [0x0a] := by
        rw [hrow, asBytes_append]
        rfl
      have hend (rest : List UInt8) : lineEnd (asBytes row ++ rest) = (asBytes row).length := by
        rw [hbytes, List.append_assoc,
          lineEnd_append_of_not_mem fun hmem => hline (mem_of_mem_asBytes hmem), List.length_append]
        rfl
      have hne : asBytes row ++ asBytes (String.join rows) ≠ [] := by
        rw [hbytes]
        simp
      rw [String.join_cons, asBytes_append, cutLines, dif_neg hne, firstLine, hend, List.take_left,
        List.drop_left, ih hrows, List.map_cons]

/-- A rendered row with its line feed. -/
def rowLine (members : Map) : String := renderObject members ++ "\n"

theorem join_rowLine (rows : List Map) : String.join (rows.map rowLine) = objectLines rows := rfl

/-- A rendered row is taken as it is. -/
theorem acceptLine_rowLine {maxRowLen : ℕ} {members : Map} {row : Option String}
    (h : acceptLine maxRowLen (rowLine members) = .ok row) : row = some (rowLine members) := by
  have hblank : isBlank (rowLine members) = false := by
    rw [rowLine, renderObject, isBlank_append, isBlank_append]
    simp [isBlank, isWhitespace]
  have hfeed : stripSuffix '\n' (rowLine members) = renderObject members := by
    rw [rowLine, stripSuffix]
    simp
  have hreturn : stripSuffix '\r' (renderObject members) = renderObject members := by
    rw [renderObject, stripSuffix]
    simp
  simp only [acceptLine, normalizeJsonlLine, hblank, hfeed, hreturn, Bool.false_eq_true, if_false,
    bind_ok, failIf_ok, pure_ok] at h
  obtain ⟨_, ⟨_, -, rfl⟩, _, -, rfl⟩ := h
  rfl

/-- Rendered rows are taken as they are. -/
theorem acceptLines_rowLine {maxRowLen : ℕ} {rows : List Map} {accepted : List String}
    (h : acceptLines maxRowLen (rows.map rowLine) = .ok accepted) :
    accepted = rows.map rowLine := by
  induction rows generalizing accepted with
  | nil => exact acceptLines_nil.1 h
  | cons members rows ih =>
      obtain ⟨row, others, hrow, hothers, rfl⟩ := acceptLines_cons.1 h
      rw [acceptLine_rowLine hrow, ih hothers]
      rfl

/-- The lines of a table are its rendered rows. -/
theorem InputLines.eq_rowLine {maxLineLen : ℕ} {rows : List Map} {lines : List String}
    (hline : OneLine) (h : InputLines maxLineLen (asBytes (objectLines rows)) lines) :
    lines = rows.map rowLine := by
  have hcut : cutLines (asBytes (objectLines rows)) = (rows.map rowLine).map asBytes := by
    rw [← join_rowLine]
    refine cutLines_join ?_
    intro row hrow
    obtain ⟨members, -, rfl⟩ := List.mem_map.1 hrow
    exact ⟨_, rfl, hline.renderObject members⟩
  exact List.map_injective_iff.2 (fun _ _ => asBytes_inj) (h.cut.symm.trans hcut)

/-- However the rows of a text are grouped, its lines are as long as its rows rendered. -/
def KeepsSize (schema : Schema) (rows : List Map) : Prop :=
  ∀ part : List Map, part.Sublist rows → (part ≠ [] → (schema.columns.map (·.name)).Nodup) →
    RawSizeKept schema (part.map rowLine)

/-- The lines of a table are as long as its rows rendered. -/
theorem keepsSize_table {schema : Schema} (hline : OneLine) (hread : ReadsBack) {rows : List Map}
    (hrows : ∀ row ∈ rows, Io.IsRow schema.columns row) : KeepsSize schema rows := by
  intro part hpart hnodup objects hobjects
  have hrows' : ∀ row ∈ part, Io.IsRow schema.columns row :=
    fun row hrow => hrows row (hpart.mem hrow)
  rw [join_rowLine] at hobjects ⊢
  rw [renderRows_objectLines hline hread hnodup hrows' hobjects]

end

section

variable [SerdeJson] [Crc32Fast] {schema : Schema}

/-- The rows that are taken from a text stay within the limits of the decoders, row group by row
group. -/
def RowGroupLimits (schema : Schema) (options : BlockOptions) (bytes : List UInt8) : Prop :=
  ∀ lines rows, InputLines options.maxUncompressedBytesPerBlock bytes lines →
    acceptLines options.maxUncompressedBytesPerBlock lines = .ok rows →
      ∀ group ∈ cutRows options rows, GroupLimits schema group

omit [Crc32Fast] in
/-- Blocks with rows are written under a schema whose columns have different names. -/
theorem nodup_of_holds {groups : List (List String)} {blocks : List Block}
    (h : List.Forall₂ (Block.Holds schema) groups blocks) (hne : groups.flatten ≠ []) :
    (schema.columns.map (·.name)).Nodup := by
  cases h with
  | nil => exact absurd rfl hne
  | cons hfirst _ =>
      obtain ⟨group, _, hencode, -⟩ := hfirst
      obtain ⟨_, _, _, _, -, hcolumns, -⟩ := encodeJsonlRowGroup_ok hencode
      obtain ⟨-, -, -, hnodup, -⟩ := Schema.supportedColumns_ok.1 hcolumns
      exact hnodup

/-- **A stream reads back** where the lines of its text are as long as its rows rendered. -/
theorem decodeJsonlStream_lines {input : BufRead} {options : BlockOptions} {stream : List UInt8}
    {rows : List Map} (hline : OneLine) (hkept : KeepsSize schema rows)
    (hbytes : input.bytes = asBytes (objectLines rows))
    (hencode : encodeJsonlStream input [] schema options = .ok stream) (hfit : Fits stream)
    (hlimits : RowGroupLimits schema options input.bytes) :
    ∃ objects, parseRows (objectLines rows) = .ok objects ∧
      (rows ≠ [] → (schema.columns.map (·.name)).Nodup) ∧
      decodeJsonlStream stream schema = .ok (asBytes (renderRows schema.columns objects)) := by
  obtain ⟨lines, accepted, blocks, hinput, haccept, hencoded, hcount, hrowCount, -, rfl⟩ :=
    encodeJsonlStream_ok hencode
  have hlimits := hlimits lines accepted hinput haccept
  obtain ⟨objects, hobjects, hdecodes, htexts⟩ := decodesTo_encoded hline hencoded.forall₂
    (isRow_of_cutRows options haccept) hlimits
  have hnodup := nodup_of_holds hencoded.forall₂
  rw [flatten_cutRows] at hobjects hnodup
  rw [← parseRows_join (isRow_of_acceptLines haccept)] at hobjects
  -- the lines that are taken are the lines of the text
  rw [hbytes] at hinput
  obtain rfl := hinput.eq_rowLine hline
  obtain rfl := acceptLines_rowLine haccept
  simp only [ne_eq, List.map_eq_nil_iff] at hnodup
  refine ⟨objects, hobjects, hnodup, ?_⟩
  have hgroups : ∀ group ∈ cutRows options (rows.map rowLine), RawSizeKept schema group := by
    intro group hgroup
    have hsub : group.Sublist (rows.map rowLine) := by
      rw [← flatten_cutRows options (rows.map rowLine)]
      exact List.sublist_flatten_of_mem hgroup
    obtain ⟨part, hpart, rfl⟩ := List.sublist_map_iff.1 hsub
    refine hkept part hpart fun hne => hnodup ?_
    rintro rfl
    exact hne (List.sublist_nil.1 hpart)
  obtain ⟨texts, htexts'⟩ := hdecodes.2 hgroups
  have hstream :
      Stream ([] ++ (writeStreamHeader ++ (blockLog.flat blocks ++ footerOf blocks true)))
      blocks true :=
    ⟨hencoded.chain (payload_le_of_limits hencoded.forall₂ hlimits), rfl, fun _ => hcount⟩
  exact (decodeJsonlStream_ok hfit).2
    ⟨blocks, texts, hstream, hrowCount, htexts', (htexts texts htexts').symm⟩

end

end Streaming

/-! ### Files of row groups -/

namespace Io.V4

open V3 Format Format.V4

/-- What a file decodes to that the writer has written. -/
theorem decodeJsonl_written [SerdeJson] [Crc32Fast] {schema : Schema} {rows : List Map} {size : ℕ}
    {groups : List RowGroup} {file : List UInt8} (hfit : Fits file)
    (hschema : validateImplementedSchema schema = .ok schema.columns) (hsize : size ≠ 0)
    (hwritten : Written file schema.columns (chunks size rows) groups)
    (hlimits : DecoderLimits schema.columns (chunks size rows)) :
    decodeJsonl file schema = .ok (renderRows schema.columns rows) := by
  obtain ⟨-, -, hnodup⟩ := validateImplementedSchema_ok hschema
  obtain ⟨trailer, hfile⟩ := hwritten.footer
  obtain ⟨-, -, footer, -, -, -, hsplit⟩ := appendFooter_ok.1 hfile
  have hheader : HasHeader file := by
    rw [hsplit, List.append_assoc]
    exact at_mid [] Format.V4.encodeEmptyHeader _
  have hlog : rowGroupLog.Holds file fileHeaderLen groups := by
    rw [hsplit]
    exact hwritten.holds.append_right _
  obtain ⟨tables, htables, hrender⟩ := exists_tables_encodes hfit hnodup hlog.1 hlog.2
    hwritten.encodes hlimits.rows_le hlimits.stored_le
  have hwithin := indexOf_withinLimits hwritten.holds.1 (by
    rw [← hwritten.encodes.length_eq]
    exact hlimits.rowGroups_le)
  have hopen : Opened file schema (indexOf groups) :=
    ⟨hschema, ⟨_, decodeHeader_empty.2 ⟨hheader, rfl⟩⟩,
      (decodeFooter_ok hfit).2 ⟨hwithin, _, trailer, hfile⟩⟩
  have hon : ∀ p, (none : Option Predicate) = some p → p.On schema.columns := by
    rintro p ⟨⟩
  obtain ⟨result, hresult, hjsonl, -⟩ := scanJsonl_ok hopen htables hon List.nodup_nil
    fun _ h => by cases h
  rw [decodeJsonl, hresult]
  -- a scan without a predicate takes every row
  have hall : ∀ rows : List Map, rows.filter (selects none) = rows := by
    intro rows
    exact List.filter_eq_self.2 fun _ _ => rfl
  rw [hall] at hjsonl
  rw [← flatten_chunks hsize rows, ← hrender]
  exact congrArg Except.ok hjsonl

end Io.V4

/-! ### Conversions -/

namespace Storage

open Io Streaming

/-- What a column takes: its codec does not matter. -/
def columnType (column : ColumnSchema) : String × SchemaValueType × Bool :=
  (column.name, column.valueType, column.nullable)

theorem isRow_of_columnType {columns columns' : List ColumnSchema} {row : Map}
    (h : columns.map columnType = columns'.map columnType) (hrow : Io.IsRow columns row) :
    Io.IsRow columns' row := by
  induction hrow generalizing columns' with
  | nil =>
      obtain rfl := List.map_eq_nil_iff.1 h.symm
      exact .nil
  | @cons column member columns row hmember _ ih =>
      obtain ⟨column', rest, rfl, hcolumn, hrest⟩ := List.map_eq_cons_iff.1 h.symm
      obtain ⟨hname, htype, hnullable⟩ : column'.name = column.name ∧
          column'.valueType = column.valueType ∧ column'.nullable = column.nullable := by
        simpa only [columnType, Prod.mk.injEq] using hcolumn
      refine .cons ⟨hmember.1.trans hname.symm, ?_⟩ (ih hrest.symm)
      rw [Io.V3.HasType, htype, hnullable]
      exact hmember.2

theorem tabular_of_columnType [SerdeJson] {columns columns' : List ColumnSchema} {text : String}
    (h : columns.map columnType = columns'.map columnType) (htext : Tabular columns text) :
    Tabular columns' text := by
  obtain ⟨rows, hrows, rfl⟩ := htext
  exact ⟨rows, fun row hrow => isRow_of_columnType h (hrows row hrow), rfl⟩

/-- A file, and the schema that it is encoded under. -/
structure StoredFile where
  data : List UInt8
  schema : Schema
  deriving DecidableEq, Repr

section

variable [SerdeJson] [Crc32Fast] {file file' : StoredFile} {text text' : String}

/-- One of the decoders gives a text for a file. -/
inductive Decodes (file : StoredFile) (text : String) : Prop
  | frame : Io.decodeJsonl file.data file.schema = .ok text → Decodes file text
  | stream : decodeJsonlStream file.data file.schema = .ok (asBytes text) → Decodes file text
  | log : replayJsonlAppendStream file.data file.schema = .ok (asBytes text) → Decodes file text
  | columns : Io.V3.decodeJsonl file.data file.schema = .ok text → Decodes file text
  | rowGroups : Io.V4.decodeJsonl file.data file.schema = .ok text → Decodes file text

/-- One of the encoders makes a file of a text, within the limits of its decoder. -/
inductive Encodes (text : String) : StoredFile → Prop
  | frame {data : List UInt8} {schema : Schema} : Io.encodeJsonl text schema = .ok data →
      (∀ rows, parseRows text = .ok rows → RleWithinLimit schema.columns rows) →
      Encodes text ⟨data, schema⟩
  | stream {data : List UInt8} {schema : Schema} {input : BufRead} {options : BlockOptions} :
      input.bytes = asBytes text → encodeJsonlStream input [] schema options = .ok data →
      RowGroupLimits schema options input.bytes → Encodes text ⟨data, schema⟩
  | columns {data : List UInt8} {schema : Schema} : Io.V3.encodeJsonl text schema = .ok data →
      (∀ rows, parseRows text = .ok rows → Io.V3.WithinLimits schema.columns rows) →
      Encodes text ⟨data, schema⟩
  | rowGroups {data : List UInt8} {schema : Schema} {options : Io.V4.EncodeOptions} :
      Io.V4.encodeJsonl text schema options = .ok data →
      (∀ rows, parseRows text = .ok rows →
        Io.V4.DecoderLimits schema.columns (Io.V4.chunks options.rowGroupRows rows)) →
      Encodes text ⟨data, schema⟩

/-- One conversion: a file is decoded and its text encoded, with any formats, options and codecs. -/
structure Converted (file file' : StoredFile) : Prop where
  columns : file.schema.columns.map columnType = file'.schema.columns.map columnType
  text : ∃ text, Decodes file text ∧ Encodes text file'
  fits : Fits file'.data

theorem Decodes.tabular (h : Decodes file text) (hfit : Fits file.data) :
    Tabular file.schema.columns text := by
  cases h with
  | frame h => exact decodeJsonl_tabular h
  | stream h =>
      obtain ⟨text', heq, htabular⟩ := decodeJsonlStream_tabular hfit h
      rwa [asBytes_inj heq]
  | log h =>
      obtain ⟨text', heq, htabular⟩ := replayJsonlAppendStream_tabular hfit h
      rwa [asBytes_inj heq]
  | columns h => exact V3.decodeJsonl_tabular h
  | rowGroups h => exact V4.decodeJsonl_tabular h

/-! ### One text for a file -/

theorem detect_frame {data : List UInt8} {schema : Schema} (hfit : Fits data)
    (h : Io.decodeJsonl data schema = .ok text) : detect data = .ok .v1 := by
  simp only [Io.decodeJsonl, bind_ok] at h
  obtain ⟨_, -, frame, hframe, -⟩ := h
  have hdata := (Framing.decodeV1_ok hfit).1 hframe
  rw [detect_ok, hdata, Framing.encodeV1, ← List.append_assoc]
  exact (at_append.1 (at_self _)).1

theorem detect_decoded {data : List UInt8} {schema : Schema}
    (h : Io.V3.decodeJsonl data schema = .ok text) : detect data = .ok .v3 := by
  simp only [Io.V3.decodeJsonl, bind_ok, failIf_ok, not_not] at h
  obtain ⟨_, -, header, hheader, _, hpayload, -⟩ := h
  exact detect_columns ((Format.readHeader_empty rfl).1 ⟨hheader, hpayload⟩).1

theorem detect_scanned {data : List UInt8} {schema : Schema}
    (h : Io.V4.decodeJsonl data schema = .ok text) : detect data = .ok .v4 := by
  simp only [Io.V4.decodeJsonl, Io.V4.scanJsonl, bind_ok, failIf_ok, not_not] at h
  obtain ⟨_, ⟨_, -, header, hheader, _, hpayload, -⟩, -⟩ := h
  exact detect_file (Io.V4.decodeHeader_empty.1 ⟨hheader, hpayload⟩).1

/-- A log that is a stream replays to the text of the stream. -/
theorem replay_eq_decode {data output output' : List UInt8} {schema : Schema} (hfit : Fits data)
    (h : decodeJsonlStream data schema = .ok output)
    (h' : replayJsonlAppendStream data schema = .ok output') : output = output' := by
  obtain ⟨blocks, texts, hstream, -, htexts, rfl⟩ := (decodeJsonlStream_ok hfit).1 h
  obtain ⟨-, blocks', texts', hlog, -, -, htexts', rfl⟩ := (replayJsonlAppendStream_ok hfit).1 h'
  have hcomplete : appendLog.Complete data streamHeaderLen blocks :=
    (hstream.complete hfit).capped (hstream.length_le rfl)
  obtain rfl := LogFormat.complete_unique hcomplete hlog
  rw [htexts.unique htexts']

/-- The format of a file, by its decoder. -/
theorem Decodes.detect (h : Decodes file text) (hfit : Fits file.data) :
    (Storage.detect file.data = .ok .v1 ∧ Io.decodeJsonl file.data file.schema = .ok text) ∨
    (Storage.detect file.data = .ok .v2 ∧
      (decodeJsonlStream file.data file.schema = .ok (asBytes text) ∨
        replayJsonlAppendStream file.data file.schema = .ok (asBytes text))) ∨
    (Storage.detect file.data = .ok .v3 ∧ Io.V3.decodeJsonl file.data file.schema = .ok text) ∨
    (Storage.detect file.data = .ok .v4 ∧ Io.V4.decodeJsonl file.data file.schema = .ok text) := by
  cases h with
  | frame h => exact .inl ⟨detect_frame hfit h, h⟩
  | stream h =>
      obtain ⟨_, _, hstream, -⟩ := (decodeJsonlStream_ok hfit).1 h
      exact .inr (.inl ⟨detect_stream hstream.header, .inl h⟩)
  | log h =>
      obtain ⟨hheader, -⟩ := (replayJsonlAppendStream_ok hfit).1 h
      exact .inr (.inl ⟨detect_stream hheader, .inr h⟩)
  | columns h => exact .inr (.inr (.inl ⟨detect_decoded h, h⟩))
  | rowGroups h => exact .inr (.inr (.inr ⟨detect_scanned h, h⟩))

/-- **All decoders that accept a file give the same text.** -/
theorem Decodes.unique (h : Decodes file text) (h' : Decodes file text') (hfit : Fits file.data) :
    text = text' := by
  rcases h.detect hfit with ⟨hformat, h⟩ | ⟨hformat, h⟩ | ⟨hformat, h⟩ | ⟨hformat, h⟩ <;>
    rcases h'.detect hfit with ⟨hformat', h'⟩ | ⟨hformat', h'⟩ | ⟨hformat', h'⟩ | ⟨hformat', h'⟩ <;>
    rw [hformat] at hformat' <;> cases hformat'
  · exact Except.ok.inj (h.symm.trans h')
  · rcases h with h | h <;> rcases h' with h' | h'
    · exact asBytes_inj (Except.ok.inj (h.symm.trans h'))
    · exact asBytes_inj (replay_eq_decode hfit h h')
    · exact asBytes_inj (replay_eq_decode hfit h' h).symm
    · exact asBytes_inj (Except.ok.inj (h.symm.trans h'))
  · exact Except.ok.inj (h.symm.trans h')
  · exact Except.ok.inj (h.symm.trans h')

/-! ### The text of a converted file -/

/-- **An encoded text is read back**, in whatever format, as its rows rendered. -/
theorem Encodes.decoded {rows : List Map} (h : Encodes (objectLines rows) file) (hline : OneLine)
    (hfit : Fits file.data) (hkept : KeepsSize file.schema rows) :
    ∃ objects, parseRows (objectLines rows) = .ok objects ∧
      (rows ≠ [] → (file.schema.columns.map (·.name)).Nodup) ∧
      (Io.decodeJsonl file.data file.schema = .ok (renderRows file.schema.columns objects) ∨
        Evolution.decodePhysical file.data file.schema =
          .ok (renderRows file.schema.columns objects)) := by
  cases h with
  | @frame data schema hencode hlimits =>
      simp only [Io.encodeJsonl, bind_ok, pure_ok] at hencode
      obtain ⟨group, hgroup, rfl⟩ := hencode
      obtain ⟨objects, _, _, _, hobjects, hcolumns, -⟩ := encodeJsonlRowGroup_ok hgroup
      obtain ⟨-, -, -, hnodup, -⟩ := Schema.supportedColumns_ok.1 hcolumns
      exact ⟨objects, hobjects, fun _ => hnodup,
        .inl (decodeJsonl_encodeJsonlRowGroup hgroup hobjects hfit (hlimits objects hobjects))⟩
  | @stream data schema input options hbytes hencode hlimits =>
      obtain ⟨objects, hobjects, hnodup, hdecode⟩ :=
        decodeJsonlStream_lines hline hkept hbytes hencode hfit hlimits
      refine ⟨objects, hobjects, hnodup, .inr ?_⟩
      obtain ⟨_, _, hstream, -⟩ := (decodeJsonlStream_ok hfit).1 hdecode
      rw [Evolution.decodePhysical, detect_stream hstream.header]
      simp only [bind_ok, Except.ok.injEq, exists_eq_left', hdecode, okOr_ok, fromUtf8_asBytes]
  | @columns data schema hencode hlimits =>
      obtain ⟨objects, parts, _, _, _, hschema, hobjects, hcount, hcolumns, hparts, rfl⟩ :=
        Io.V3.encodeJsonl_ok hencode
      obtain ⟨-, -, hnodup⟩ := Io.V3.validateImplementedSchema_ok hschema
      obtain ⟨-, hflat⟩ := Io.V3.fits_parts hfit
      obtain ⟨_, hdecoded, hholds⟩ := Io.V3.exists_decoded (hlimits objects hobjects) hflat hparts
      have hdecode := (Io.V3.decodeJsonl_written hschema hcount hcolumns hparts hfit).2
        ⟨_, hdecoded, Io.V3.renderDecodedRows_ok hholds⟩
      refine ⟨objects, hobjects, fun _ => hnodup, .inr ?_⟩
      rw [Evolution.decodePhysical, detect_decoded hdecode]
      exact hdecode
  | @rowGroups data schema options hencode hlimits =>
      obtain ⟨objects, hobjects⟩ : ∃ objects, parseRows (objectLines rows) = .ok objects := by
        simp only [Io.V4.encodeJsonl, bind_ok] at hencode
        obtain ⟨_, -, _, -, objects, hobjects, -⟩ := hencode
        exact ⟨objects, hobjects⟩
      have hlimits := hlimits objects hobjects
      obtain ⟨objects', groups, hschema, hsize, hobjects', hwritten⟩ :=
        Io.V4.encodeJsonl_ok hlimits.columns_le hencode
      rw [hobjects, Except.ok.injEq] at hobjects'
      subst hobjects'
      obtain ⟨-, -, hnodup⟩ := Io.V3.validateImplementedSchema_ok hschema
      have hdecode := Io.V4.decodeJsonl_written hfit hschema hsize hwritten hlimits
      refine ⟨objects, hobjects, fun _ => hnodup, .inr ?_⟩
      rw [Evolution.decodePhysical, detect_scanned hdecode]
      exact hdecode

/-- What is decoded under the writer's revision is given by one of the decoders. -/
theorem Decodes.of_decodePhysical
    (h : Evolution.decodePhysical file.data file.schema = .ok text) : Decodes file text := by
  simp only [Evolution.decodePhysical, bind_ok] at h
  obtain ⟨format, -, h⟩ := h
  cases format with
  | v1 => cases h
  | v2 =>
      simp only [bind_ok, okOr_ok, fromUtf8_eq_some] at h
      obtain ⟨_, hdecode, rfl⟩ := h
      exact .stream hdecode
  | v3 => exact .columns h
  | v4 => exact .rowGroups h

/-- **An encoded table is read back**, in whatever format, as the same text. -/
theorem Encodes.decodes (h : Encodes text file) (hline : OneLine) (hread : ReadsBack)
    (hfit : Fits file.data) (htext : Tabular file.schema.columns text) : Decodes file text := by
  obtain ⟨rows, hrows, rfl⟩ := htext
  obtain ⟨objects, hobjects, hnodup, hdecode⟩ :=
    h.decoded hline hfit (keepsSize_table hline hread hrows)
  rw [renderRows_objectLines hline hread hnodup hrows hobjects] at hdecode
  rcases hdecode with hdecode | hdecode
  · exact .frame hdecode
  · exact .of_decodePhysical hdecode

/-- One conversion does not change what a file says. -/
theorem Converted.decodes (h : Converted file file') (hline : OneLine) (hread : ReadsBack)
    (hfit : Fits file.data) (htext : Decodes file text) : Decodes file' text := by
  obtain ⟨text', hdecode, hencode⟩ := h.text
  obtain rfl := htext.unique hdecode hfit
  exact hencode.decodes hline hread h.fits (tabular_of_columnType h.columns (htext.tabular hfit))

/-- **No chain of conversions changes what a file says.**  A file of any kind is decoded and its
text encoded, again and again: in another format, with other options and with other codecs.  Whoever
decodes the last file gets the text of the first one. -/
theorem converted_decodes (hline : OneLine) (hread : ReadsBack) (hfit : Fits file.data)
    (htext : Decodes file text) (h : Relation.ReflTransGen Converted file file') :
    Decodes file' text' ↔ text' = text := by
  have hrun : Fits file'.data ∧ Decodes file' text := by
    induction h with
    | refl => exact ⟨hfit, htext⟩
    | tail _ hstep ih => exact ⟨hstep.fits, hstep.decodes hline hread ih.1 ih.2⟩
  constructor
  · intro h'
    exact h'.unique hrun.2 hrun.1
  · rintro rfl
    exact hrun.2

end

open scoped CompactCore.Reference.Json

set_option maxRecDepth 8192 in
/-- A frame, converted to a file of columns with another codec, and back. -/
theorem converted_decodes_frame : ∃ frame file last,
    Converted frame file ∧ Converted file last ∧ frame.schema ≠ file.schema ∧
      ∀ text, Decodes last text ↔ text = Reference.idLines := by
  obtain ⟨data, hencode, hfit, hdecode⟩ := Reference.exists_ok
    (x := Io.encodeJsonl Reference.idLines (Reference.idSchema .deltaVarintU64))
    (fun data => Fits data ∧ Io.decodeJsonl data (Reference.idSchema .deltaVarintU64) =
      .ok Reference.idLines) (by decide +kernel)
  obtain ⟨data', hencode', hfit', hdecode'⟩ := Reference.exists_ok
    (x := Io.V3.encodeJsonl Reference.idLines (Reference.idSchema .stored))
    (fun data => Fits data ∧ Io.V3.decodeJsonl data (Reference.idSchema .stored) =
      .ok Reference.idLines) (by decide +kernel)
  have hlimits : ∀ rows, parseRows Reference.idLines = .ok rows →
      Io.V3.WithinLimits (Reference.idSchema .stored).columns rows := by
    intro rows hrows
    obtain ⟨rows', hrows', hlen, hstrings⟩ := Reference.exists_ok
      (x := parseRows Reference.idLines) (fun rows => rows.length ≤ maxDecodedValues ∧
        ∀ column ∈ (Reference.idSchema .stored).columns,
          ((columnStrings column rows).flatMap Strings.lenPrefixed).length ≤ maxDecodedBytes)
      (by decide +kernel)
    rw [hrows', Except.ok.injEq] at hrows
    subst hrows
    exact ⟨hlen, by decide, fun column hcolumn _ _ _ => hstrings column hcolumn⟩
  have hfirst : Converted ⟨data, Reference.idSchema .deltaVarintU64⟩
      ⟨data', Reference.idSchema .stored⟩ := by
    exact ⟨rfl, ⟨_, .frame hdecode, .columns hencode' hlimits⟩, hfit'⟩
  have hsecond : Converted ⟨data', Reference.idSchema .stored⟩
      ⟨data, Reference.idSchema .deltaVarintU64⟩ := by
    refine ⟨rfl, ⟨_, .columns hdecode', .frame hencode fun rows _ column hcolumn hcodec => ?_⟩,
      hfit⟩
    obtain rfl := List.mem_singleton.1 hcolumn
    cases hcodec
  have hcodec : Reference.idSchema .deltaVarintU64 ≠ Reference.idSchema .stored := by decide
  refine ⟨_, _, _, hfirst, hsecond, hcodec, ?_⟩
  intro text
  exact converted_decodes Reference.Json.oneLine Reference.Json.readsBack hfit (.frame hdecode)
    (.tail (.single hfirst) hsecond)

end Storage

end CompactCore
