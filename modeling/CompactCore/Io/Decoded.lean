/-
**What the decoders give.**

Four formats store JSON rows, and each has a decoder of its own.  Whatever bytes a decoder accepts,
its text is a table of the schema that it was given: every line is an object with the columns of the
schema as its members, in order, and every value is one that its column takes.

Main definitions:

* `CompactCore.Io.IsRow`, `CompactCore.Io.Tabular` — rows of a table, and its text;
* `CompactCore.Io.ReadsBack` — what is printed is read back.

Main results:

* `CompactCore.Io.decodeJsonl_tabular`, `CompactCore.Streaming.decodeJsonlStream_tabular`,
  `CompactCore.Io.V3.decodeJsonl_tabular`, `CompactCore.Io.V4.scanJsonl_tabular` — a decoder gives a
  table of its schema;
* `CompactCore.Storage.decoded_tabular` — **no decoder gives anything but rows of its schema**;
* `CompactCore.Io.parseRows_plain`, `CompactCore.Io.parseRows_objectLines` — the rows of such a text
  are read back.
-/

import CompactCore.Io.RoundTrip
import CompactCore.Io.V3.Encodable
import CompactCore.Io.V4.Scan
import CompactCore.Storage.Acceptance
import CompactCore.Streaming.Recovery

set_option relaxedAutoImplicit false
set_option autoImplicit false

namespace CompactCore

/-! ### Tables -/

theorem Map.get_of_mem {row : Map} (hnodup : (row.map Prod.fst).Nodup)
    {key : String} {value : Value} (h : (key, value) ∈ row) : row.get key = some value := by
  induction row with
  | nil => cases h
  | cons member row ih =>
      rw [List.map_cons, List.nodup_cons] at hnodup
      rw [Map.get, List.lookup_cons]
      rcases List.mem_cons.1 h with rfl | hmem
      · rw [beq_self_eq_true]
      · have hne : (key == member.1) = false := by
          rw [beq_eq_false_iff_ne]
          intro heq
          exact hnodup.1 (heq ▸ List.mem_map_of_mem (f := Prod.fst) hmem)
        rw [hne]
        exact ih hnodup.2 hmem

namespace Io

open Wire Streaming

/-- A row of a table: an object with a member for every column, in order, whose value the column
takes. -/
def IsRow (columns : List ColumnSchema) (row : Map) : Prop :=
  List.Forall₂ (fun column (member : String × Value) =>
    member.1 = column.name ∧ V3.HasType column member.2) columns row

/-- The text of a table. -/
def Tabular [SerdeJson] (columns : List ColumnSchema) (text : String) : Prop :=
  ∃ rows : List Map, (∀ row ∈ rows, IsRow columns row) ∧ text = objectLines rows

theorem IsRow.keys {columns : List ColumnSchema} {row : Map} (h : IsRow columns row) :
    row.map Prod.fst = columns.map (·.name) := by
  induction h with
  | nil => rfl
  | cons hmember _ ih => rw [List.map_cons, List.map_cons, hmember.1, ih]

theorem IsRow.exists_member {columns : List ColumnSchema} {row : Map} (h : IsRow columns row)
    {column : ColumnSchema} (hcolumn : column ∈ columns) :
    ∃ value, (column.name, value) ∈ row ∧ V3.HasType column value := by
  induction h with
  | nil => cases hcolumn
  | @cons first member columns row hmember _ ih =>
      obtain ⟨hname, htype⟩ := hmember
      rcases List.mem_cons.1 hcolumn with rfl | hcolumn
      · exact ⟨member.2, hname ▸ List.mem_cons_self, htype⟩
      · obtain ⟨value, hmem, htype⟩ := ih hcolumn
        exact ⟨value, List.mem_cons_of_mem _ hmem, htype⟩

/-- A row has a value for every column. -/
theorem IsRow.exists_get {columns : List ColumnSchema} {row : Map} (h : IsRow columns row)
    (hnodup : (columns.map (·.name)).Nodup) {column : ColumnSchema} (hcolumn : column ∈ columns) :
    ∃ value, row.get column.name = some value ∧ V3.HasType column value := by
  obtain ⟨value, hmem, htype⟩ := h.exists_member hcolumn
  have hkeys : (row.map Prod.fst).Nodup := by rwa [h.keys]
  exact ⟨value, Map.get_of_mem hkeys hmem, htype⟩

/-! ### Texts of tables -/

theorem Tabular.nil [SerdeJson] (columns : List ColumnSchema) : Tabular columns "" :=
  ⟨[], List.forall_mem_nil _, rfl⟩

theorem Tabular.append [SerdeJson] {columns : List ColumnSchema} {text more : String}
    (h : Tabular columns text) (hmore : Tabular columns more) : Tabular columns (text ++ more) := by
  obtain ⟨rows, hrows, rfl⟩ := h
  obtain ⟨others, hothers, rfl⟩ := hmore
  refine ⟨rows ++ others, ?_, (objectLines_append rows others).symm⟩
  intro row hrow
  rcases List.mem_append.1 hrow with hrow | hrow
  · exact hrows row hrow
  · exact hothers row hrow

theorem Tabular.line [SerdeJson] {columns : List ColumnSchema} {row : Map} (h : IsRow columns row) :
    Tabular columns (renderObject row ++ "\n") := by
  refine ⟨[row], ?_, by simp [objectLines]⟩
  intro other hother
  rw [List.mem_singleton.1 hother]
  exact h

/-- A value without parts. -/
def Plain (value : Value) : Prop :=
  value = .null ∨ ∃ valueType, HasType valueType value

theorem plain_of_hasType {column : ColumnSchema} {value : Value} (h : V3.HasType column value) :
    Plain value := by
  rw [V3.HasType] at h
  revert h
  cases column.valueType with
  | bool => exact fun h => h.imp And.left fun h => ⟨.bool, h⟩
  | u64 => exact fun h => h.imp And.left fun h => ⟨.u64, h⟩
  | string => exact fun h => h.imp And.left fun h => ⟨.string, h⟩

/-- What is printed is read back: `serde_json` reads an object of plain values under different names
as one that has the same members. -/
structure ReadsBack [SerdeJson] : Prop where
  object : ∀ members : Map, (members.map Prod.fst).Nodup → (∀ member ∈ members, Plain member.2) →
    ∃ object : Map, SerdeJson.fromStr (renderObject members) = some (.object object) ∧
      ∀ key, object.get key = members.get key

theorem IsRow.plain {columns : List ColumnSchema} {row : Map} (h : IsRow columns row) :
    ∀ member ∈ row, Plain member.2 := by
  induction h with
  | nil => exact List.forall_mem_nil _
  | cons hmember _ ih => exact List.forall_mem_cons.2 ⟨plain_of_hasType hmember.2, ih⟩

/-- **The rows of a text are read back**, up to the order of the members. -/
theorem parseRows_plain [SerdeJson] (hline : OneLine) (hread : ReadsBack) {rows : List Map}
    (hkeys : ∀ row ∈ rows, (row.map Prod.fst).Nodup)
    (hplain : ∀ row ∈ rows, ∀ member ∈ row, Plain member.2) :
    ∃ objects, parseRows (objectLines rows) = .ok objects ∧
      List.Forall₂ (fun row (object : Map) => ∀ key, object.get key = row.get key)
        rows objects := by
  have hlines : ((lines (objectLines rows)).filter fun line => !isBlank line) =
      rows.map renderObject := by
    rw [lines_objectLines hline]
    refine List.filter_eq_self.2 ?_
    intro line hmem
    obtain ⟨members, -, rfl⟩ := List.mem_map.1 hmem
    rw [renderObject, isBlank_append]
    simp [isBlank, isWhitespace]
  rw [parseRows, hlines]
  clear hlines
  induction rows with
  | nil => exact ⟨[], rfl, .nil⟩
  | cons row rows ih =>
      rw [List.forall_mem_cons] at hkeys hplain
      obtain ⟨objects, hobjects, hsame⟩ := ih hkeys.2 hplain.2
      obtain ⟨object, hobject, hget⟩ := hread.object row hkeys.1 hplain.1
      refine ⟨object :: objects, ?_, .cons hget hsame⟩
      simp only [List.map_cons, List.mapM_cons, parseJsonlObject, bind_ok, okOr_ok, pure_ok]
      exact ⟨object, ⟨_, hobject, rfl⟩, objects, hobjects, rfl⟩

/-- The rows of a table are read back. -/
theorem parseRows_objectLines [SerdeJson] (hline : OneLine) (hread : ReadsBack)
    {columns : List ColumnSchema} (hnodup : (columns.map (·.name)).Nodup) {rows : List Map}
    (hrows : ∀ row ∈ rows, IsRow columns row) :
    ∃ objects, parseRows (objectLines rows) = .ok objects ∧
      List.Forall₂ (fun row (object : Map) => ∀ key, object.get key = row.get key)
        rows objects := by
  refine parseRows_plain hline hread ?_ fun row hrow => (hrows row hrow).plain
  intro row hrow
  rwa [(hrows row hrow).keys]

/-! ### Column blocks -/

/-- Whatever a decoder makes of the payload of a column, its values have the type of the column. -/
theorem ColumnValues.hasType_decode {column : ColumnSchema} {payload : List UInt8}
    {values : ColumnValues} (h : ColumnValues.decode column payload = .ok values) (i : ℕ) :
    V3.HasType column (values.valueAt i) := by
  rw [ColumnValues.decode] at h
  split at h
  next hu64 _ =>
    simp only [bind_ok, pure_ok] at h
    obtain ⟨numbers, -, rfl⟩ := h
    rw [V3.HasType, hu64]
    exact .inr ⟨_, rfl⟩
  next hstring _ =>
    simp only [bind_ok, pure_ok] at h
    obtain ⟨strings, -, rfl⟩ := h
    rw [V3.HasType, hstring]
    exact .inr ⟨_, rfl⟩
  next hstring _ =>
    simp only [bind_ok, pure_ok] at h
    obtain ⟨strings, -, rfl⟩ := h
    rw [V3.HasType, hstring]
    exact .inr ⟨_, rfl⟩
  next => cases h

theorem readColumnBlocks_typed {columns : List ColumnSchema} {expected : Option ℕ}
    {data : List UInt8} {c c' : ℕ} {decoded : List DecodedColumn}
    (h : readColumnBlocks columns expected data c = .ok (decoded, c')) :
    List.Forall₂ (fun column (found : DecodedColumn) => found.name = column.name ∧
      ∀ i, V3.HasType column (found.values.valueAt i)) columns decoded := by
  induction columns generalizing expected c c' decoded with
  | nil =>
      rw [readColumnBlocks, Reader.pure_ok] at h
      obtain ⟨rfl, -⟩ := h
      exact .nil
  | cons column columns ih =>
      simp only [readColumnBlocks, Reader.bind_ok, Prod.exists, Reader.pure_ok] at h
      obtain ⟨first, n, next, hfirst, others, _, hothers, rfl, -⟩ := h
      refine .cons ?_ (ih hothers)
      simp only [readColumnBlock, Reader.bind_ok, Reader.lift_ok, failIf_ok, not_not,
        Reader.pure_ok, Prod.mk.injEq] at hfirst
      obtain ⟨_, _, -, _, _, -, name, _, -, _, _, ⟨hname, -⟩, _, _, -, _, _, -, _, _, -, _, _, -, _,
        _, -, _, _, -, _, _, -, _, _, -, values, _, ⟨hvalues, -⟩, _, _, -, _, _, -, ⟨rfl, -⟩, -⟩ :=
          hfirst
      exact ⟨hname, ColumnValues.hasType_decode hvalues⟩

/-- **A decoder gives a table of its schema**, here that of `CMP1` frames. -/
theorem decodeJsonl_tabular [Crc32Fast] [SerdeJson] {frame : List UInt8} {schema : Schema}
    {text : String} (h : decodeJsonl frame schema = .ok text) : Tabular schema.columns text := by
  simp only [decodeJsonl, decodeColumnBlocks, readBlock, bind_ok, Prod.exists, pure_ok,
    Reader.bind_ok] at h
  obtain ⟨columns, hcolumns, outer, -, _, -, _,
    ⟨decoded, _, ⟨_, _, -, _, _, -, _, _, -, _, _, -, hread⟩, _, -, rfl⟩, rfl⟩ := h
  obtain ⟨rfl, -⟩ := Schema.supportedColumns_ok.1 hcolumns
  refine ⟨(List.range ((decoded.head?.map fun column => column.values.len).getD 0)).map fun i =>
    decoded.map fun column => (column.name, column.values.valueAt i), ?_, ?_⟩
  · intro row hrow
    obtain ⟨i, -, rfl⟩ := List.mem_map.1 hrow
    rw [IsRow, List.forall₂_map_right_iff]
    exact (readColumnBlocks_typed hread).imp fun column found hfound => ⟨hfound.1, hfound.2 i⟩
  · rw [objectLines, List.map_map, String.join, List.foldl_map]
    simp only [String.append_assoc]
    rfl

end Io

/-! ### Streams -/

namespace Streaming

open Wire Io

variable [Crc32Fast] [SerdeJson]

theorem decodesTo_tabular {schema : Schema} {blocks : List Block} {texts : List String}
    (h : DecodesTo schema blocks texts) : Tabular schema.columns (String.join texts) := by
  induction h with
  | nil => exact Tabular.nil _
  | cons htext _ ih =>
      simp only [decodeBlock, bind_ok, pure_ok] at htext
      obtain ⟨_, htext, -, -, -, -, rfl⟩ := htext
      rw [String.join_cons]
      exact (decodeJsonl_tabular htext).append ih

/-- **A decoder gives a table of its schema**, here that of `CMP2` streams. -/
theorem decodeJsonlStream_tabular {data output : List UInt8} {schema : Schema} (hfit : Fits data)
    (h : decodeJsonlStream data schema = .ok output) :
    ∃ text, output = asBytes text ∧ Tabular schema.columns text := by
  obtain ⟨blocks, texts, -, -, htexts, rfl⟩ := (decodeJsonlStream_ok hfit).1 h
  exact ⟨String.join texts, (asBytes_join texts).symm, decodesTo_tabular htexts⟩

/-- **Replaying gives a table of its schema.** -/
theorem replayJsonlAppendStream_tabular {data output : List UInt8} {schema : Schema}
    (hfit : Fits data) (h : replayJsonlAppendStream data schema = .ok output) :
    ∃ text, output = asBytes text ∧ Tabular schema.columns text := by
  obtain ⟨-, blocks, texts, -, -, -, htexts, rfl⟩ := (replayJsonlAppendStream_ok hfit).1 h
  exact ⟨String.join texts, (asBytes_join texts).symm, decodesTo_tabular htexts⟩

end Streaming

/-! ### Column chunks -/

namespace Io.V3

open Wire Format Format.V3 Codecs.V3 Streaming

/-- A column that is not nullable is decoded only if it declares no null values. -/
theorem decodeValues_required {metadata : ColumnChunkMetadata} {payload : List UInt8}
    {decoded : DecodedColumn} (h : decodeValues metadata payload = .ok decoded)
    (hnullable : metadata.nullable = false) : metadata.nullCount = 0 := by
  by_contra hne
  rw [decodeValues] at h
  split at h
  · simp only [decodeBooleanColumn, BooleanColumn.validateBooleanMetadata, bind_ok, failIf_ok] at h
    obtain ⟨_, ⟨_, ⟨_, -, _, -, _, hnull, -⟩, -⟩, -⟩ := h
    exact hnull ⟨hnullable, hne⟩
  · simp only [decodeU64Column, NumericColumn.validateMetadata, bind_ok, failIf_ok] at h
    obtain ⟨_, ⟨_, ⟨_, -, _, hnull, -⟩, -⟩, -⟩ := h
    exact hnull (.inr ⟨hnullable, hne⟩)
  · simp only [decodeStringColumn, StringColumn.validateMetadata, bind_ok, failIf_ok] at h
    obtain ⟨_, ⟨_, ⟨_, -, _, hnull, -⟩, -⟩, -⟩ := h
    exact hnull (.inr (.inr ⟨hnullable, hne⟩))

/-- A decoded entry is null, or has the type that the metadata names. -/
theorem decodeValues_typed {metadata : ColumnChunkMetadata} {payload : List UInt8}
    {decoded : DecodedColumn} (h : decodeValues metadata payload = .ok decoded) {value : Value}
    (hvalue : value ∈ decoded.entries) : value = .null ∨ Io.HasType metadata.valueType value := by
  rw [decodeValues] at h
  split at h
  next hbool =>
    rw [bind_ok] at h
    obtain ⟨cells, -, hdecoded⟩ := h
    cases hdecoded
    obtain ⟨cell, -, rfl⟩ := List.mem_map.1 hvalue
    rw [hbool]
    cases cell with
    | none => exact .inl rfl
    | some b => exact .inr ⟨b, rfl⟩
  next hu64 =>
    rw [bind_ok] at h
    obtain ⟨cells, -, hdecoded⟩ := h
    cases hdecoded
    obtain ⟨cell, -, rfl⟩ := List.mem_map.1 hvalue
    rw [hu64]
    cases cell with
    | none => exact .inl rfl
    | some n => exact .inr ⟨n, rfl⟩
  next hstring =>
    rw [bind_ok] at h
    obtain ⟨cells, -, hdecoded⟩ := h
    cases hdecoded
    obtain ⟨cell, -, rfl⟩ := List.mem_map.1 hvalue
    rw [hstring]
    cases cell with
    | none => exact .inl rfl
    | some s => exact .inr ⟨s, rfl⟩

/-- A value of a type that a column has is one that it takes. -/
theorem hasType_of {column : ColumnSchema} {value : Value}
    (h : Io.HasType column.valueType value) : HasType column value := by
  rw [HasType]
  revert h
  cases column.valueType <;> exact fun h => .inr h

/-- **The entries of a decoded column** are values that the column takes. -/
theorem decodeColumn_typed {metadata : ColumnChunkMetadata} {payload : List UInt8}
    {decoded : DecodedColumn} {column : ColumnSchema} {rowCount : ℕ}
    (hschema : validateMetadataAgainstSchema metadata column rowCount = .ok ())
    (h : decodeColumn metadata payload = .ok decoded) {value : Value}
    (hvalue : value ∈ decoded.entries) : HasType column value := by
  simp only [validateMetadataAgainstSchema, bind_ok, failIf_ok, not_or, not_not] at hschema
  obtain ⟨_, ⟨-, htype, hnullable, -⟩, -⟩ := hschema
  have hcount := (decodeColumn_ok h).nullCount_eq
  simp only [decodeColumn, bind_ok, pure_ok] at h
  obtain ⟨_, -, _, hvalues, _, -, rfl⟩ := h
  rcases decodeValues_typed hvalues hvalue with rfl | htyped
  · refine .inl ⟨rfl, ?_⟩
    -- a null entry is counted, and the metadata of a required column counts none
    rw [← hnullable]
    by_contra hnot
    rw [decodeValues_required hvalues (by simpa using hnot), ← DecodedColumn.countP_isNull,
      UInt64.toNat_zero, List.countP_eq_zero] at hcount
    exact hcount _ hvalue rfl
  · exact hasType_of (htype ▸ htyped)

theorem readColumns_typed {rowCount : ℕ} {columns : List ColumnSchema} {data : List UInt8}
    {c c' : ℕ} {decoded : List DecodedColumn}
    (h : readColumns rowCount columns data c = .ok (decoded, c')) :
    List.Forall₂ (fun column (found : DecodedColumn) => ∀ value ∈ found.entries,
      HasType column value) columns decoded := by
  induction columns generalizing c c' decoded with
  | nil =>
      rw [readColumns, Reader.pure_ok] at h
      obtain ⟨rfl, -⟩ := h
      exact .nil
  | cons column columns ih =>
      simp only [readColumns, Reader.bind_ok, Reader.pure_ok] at h
      obtain ⟨first, next, hfirst, others, _, hothers, rfl, -⟩ := h
      refine .cons ?_ (ih hothers)
      simp only [readColumn, Reader.bind_ok, Reader.lift_ok] at hfirst
      obtain ⟨_, _, -, _, _, -, _, _, -, _, _, -, _, _, ⟨hschema, -⟩, _, _, -, _, _, -, hdecode,
        -⟩ := hfirst
      exact fun value hvalue => decodeColumn_typed hschema hdecode hvalue

theorem decodedRow_isRow {columns : List ColumnSchema} {decoded : List DecodedColumn} {i : ℕ}
    {row : Map} (hdecoded : List.Forall₂ (fun column (found : DecodedColumn) =>
      ∀ value ∈ found.entries, HasType column value) columns decoded)
    (h : decodedRow columns decoded i = .ok row) : IsRow columns row := by
  rw [decodedRow] at h
  induction hdecoded generalizing row with
  | nil =>
      cases h
      exact .nil
  | @cons column found columns decoded hfound _ ih =>
      simp only [List.zip_cons_cons, List.mapM_cons, bind_ok, pure_ok] at h
      obtain ⟨_, ⟨value, hvalue, rfl⟩, rest, hrest, rfl⟩ := h
      rw [DecodedColumn.valueAt_ok] at hvalue
      exact .cons ⟨rfl, hfound value (List.mem_of_getElem? hvalue)⟩ (ih hrest)

theorem readRowGroup_typed {columns : List ColumnSchema} {data : List UInt8} {c c' n : ℕ}
    {decoded : List DecodedColumn}
    (h : readRowGroup columns data c = .ok ((n, decoded), c')) :
    List.Forall₂ (fun column (found : DecodedColumn) => ∀ value ∈ found.entries,
      HasType column value) columns decoded := by
  simp only [readRowGroup, Reader.bind_ok, Reader.pure_ok, Prod.mk.injEq] at h
  obtain ⟨_, _, -, _, _, -, _, _, -, _, _, -, _, _, -, _, _, -, _, _, -, _, _, -, _, _, -, _, _, -,
    _, _, -, _, _, hread, ⟨-, rfl⟩, -⟩ := h
  exact readColumns_typed hread

/-- **A decoder gives a table of its schema**, here that of `CMP3` files. -/
theorem decodeJsonl_tabular [Crc32Fast] [SerdeJson] {data : List UInt8} {schema : Schema}
    {text : String} (h : decodeJsonl data schema = .ok text) : Tabular schema.columns text := by
  simp only [decodeJsonl, bind_ok, Prod.exists] at h
  obtain ⟨columns, hschema, _, -, _, -, _, -, _, -, n, decoded, _, hread, _, -, hrender⟩ := h
  obtain ⟨rfl, -⟩ := validateImplementedSchema_ok hschema
  have htyped := readRowGroup_typed hread
  -- the loop over the rows adds one line at a time
  refine foldlM_invariant (P := fun _ text => Tabular schema.columns text) ?_
    (Tabular.nil _) hrender
  rintro _ i text more htext hstep
  simp only [bind_ok, pure_ok] at hstep
  obtain ⟨row, hrow, rfl⟩ := hstep
  rw [String.append_assoc]
  exact htext.append (Tabular.line (decodedRow_isRow htyped hrow))

end Io.V3

/-! ### Files of row groups -/

namespace Io.V4

open Wire Format Format.V4 Codecs.V3 Streaming

/-- The entries of a decoded column of a row group are values that the column takes. -/
theorem decodeSchemaColumn_typed {data : List UInt8} {rowGroup : RowGroupIndexEntry}
    {column : ColumnSchema} {decoded : V3.DecodedColumn}
    (h : decodeSchemaColumn data rowGroup column = .ok decoded) {value : Value}
    (hvalue : value ∈ decoded.entries) : V3.HasType column value := by
  simp only [decodeSchemaColumn, decodeFooterColumn, bind_ok, Prod.exists] at h
  obtain ⟨_, -, _, -, metadata, _, -, _, -, rowCount, -, _, hschema, _, -, payload, -, hdecode⟩ := h
  exact V3.decodeColumn_typed hschema hdecode hvalue

/-- A selection holds values that its column takes. -/
def SelectionTyped (columns : List ColumnSchema) (selection : DecodedSelection) : Prop :=
  ∃ column ∈ columns, selection.name = column.name ∧
    ∀ value ∈ selection.decoded.entries, V3.HasType column value

theorem selectFrom_names {columns selected : List ColumnSchema} {seen names : List String}
    (h : selectFrom columns seen names = .ok selected) :
    selected.map (·.name) = names ∧ ∀ column ∈ selected, column ∈ columns := by
  induction names generalizing seen selected with
  | nil =>
      cases h
      exact ⟨rfl, List.forall_mem_nil _⟩
  | cons name names ih =>
      simp only [selectFrom, bind_ok, okOr_ok, pure_ok] at h
      obtain ⟨_, -, column, hfind, rest, hrest, rfl⟩ := h
      obtain ⟨hmem, hname⟩ := findColumn_some hfind
      obtain ⟨hnames, hall⟩ := ih hrest
      exact ⟨by rw [List.map_cons, hname, hnames], List.forall_mem_cons.2 ⟨hmem, hall⟩⟩

theorem selectProjection_mem {columns selected : List ColumnSchema} {projection : List String}
    (h : selectProjection columns projection = .ok selected) :
    ∀ column ∈ selected, column ∈ columns := by
  rw [selectProjection] at h
  split at h
  · cases h
    exact fun _ hcolumn => hcolumn
  · exact (selectFrom_names h).2

theorem decodeRowGroupProjection_typed [Crc32Fast] {data : List UInt8}
    {rowGroup : RowGroupIndexEntry} {columns selected : List ColumnSchema}
    (hselected : ∀ column ∈ selected, column ∈ columns) {predicate : Option Predicate}
    {verify : Bool} {decoded : List DecodedSelection}
    (h : decodeRowGroupProjection data rowGroup columns selected predicate verify = .ok decoded) :
    ∀ selection ∈ decoded, SelectionTyped columns selection := by
  simp only [decodeRowGroupProjection, bind_ok, mapM_ok] at h
  obtain ⟨_, -, hdecoded⟩ := h
  intro selection hselection
  obtain ⟨i, hi, rfl⟩ := List.getElem_of_mem hselection
  have hrequired := (List.forall₂_iff_get.1 hdecoded).2 i (hdecoded.length_eq ▸ hi) hi
  simp only [decodeRequired, bind_ok, okOr_ok, pure_ok, List.get_eq_getElem] at hrequired
  obtain ⟨column, hfind, found, hfound, hselection⟩ := hrequired
  rw [← hselection]
  refine ⟨column, ?_, rfl, fun value hvalue => decodeSchemaColumn_typed hfound hvalue⟩
  -- the column is one of the projection or one of the schema
  rw [Option.or_eq_some_iff] at hfind
  rcases hfind with hfind | ⟨-, hfind⟩
  · exact hselected column (findColumn_some hfind).1
  · exact (findColumn_some hfind).1

theorem projectedValue_typed {columns : List ColumnSchema} (hnodup : (columns.map (·.name)).Nodup)
    {decoded : List DecodedSelection}
    (hdecoded : ∀ selection ∈ decoded, SelectionTyped columns selection) {column : ColumnSchema}
    (hcolumn : column ∈ columns) {i : ℕ} {member : String × Value}
    (h : projectedValue decoded i column = .ok member) :
    member.1 = column.name ∧ V3.HasType column member.2 := by
  simp only [projectedValue, bind_ok, okOr_ok, pure_ok] at h
  obtain ⟨selection, hfind, value, hvalue, rfl⟩ := h
  obtain ⟨other, hother, hname, htyped⟩ := hdecoded selection (List.mem_of_find?_eq_some hfind)
  have hsame : selection.name = column.name := by
    have htest := List.find?_some hfind
    rw [Bool.and_eq_true, beq_iff_eq] at htest
    exact htest.2
  rw [V3.DecodedColumn.valueAt_ok] at hvalue
  have hcolumns : other = column :=
    List.inj_on_of_nodup_map hnodup hother hcolumn (hname.symm.trans hsame)
  rw [← hcolumns]
  exact ⟨rfl, htyped value (List.mem_of_getElem? hvalue)⟩

theorem projectedRow_isRow {columns selected : List ColumnSchema}
    (hnodup : (columns.map (·.name)).Nodup) (hselected : ∀ column ∈ selected, column ∈ columns)
    {decoded : List DecodedSelection}
    (hdecoded : ∀ selection ∈ decoded, SelectionTyped columns selection) {i : ℕ} {row : Map}
    (h : selected.mapM (projectedValue decoded i) = .ok row) : IsRow selected row := by
  rw [mapM_ok] at h
  induction h with
  | nil => exact .nil
  | cons hmember _ ih =>
      obtain ⟨hcolumn, hselected⟩ := List.forall_mem_cons.1 hselected
      exact .cons (projectedValue_typed hnodup hdecoded hcolumn hmember) (ih hselected)

/-- The rows that a scan renders are rows of the projection. -/
theorem renderFilteredRow_tabular [SerdeJson] {columns selected : List ColumnSchema}
    (hnodup : (columns.map (·.name)).Nodup) (hselected : ∀ column ∈ selected, column ∈ columns)
    {decoded : List DecodedSelection}
    (hdecoded : ∀ selection ∈ decoded, SelectionTyped columns selection)
    {predicate : Option Predicate} {out more : String} {i : ℕ} (hout : Tabular selected out)
    (h : renderFilteredRow selected decoded predicate out i = .ok more) :
    Tabular selected more := by
  simp only [renderFilteredRow, bind_ok] at h
  obtain ⟨matched, -, h⟩ := h
  split at h
  · simp only [bind_ok, pure_ok] at h
    obtain ⟨row, hrow, rfl⟩ := h
    rw [String.append_assoc]
    exact hout.append (Tabular.line (projectedRow_isRow hnodup hselected hdecoded hrow))
  · cases h
    exact hout

/-- **A scan gives a table of its projection**, whatever it selects. -/
theorem scanJsonl_tabular [Crc32Fast] [SerdeJson] {data : List UInt8} {schema : Schema}
    {projection : List String} {predicate : Option Predicate} {result : ScanResult}
    (h : scanJsonl data schema projection predicate = .ok result) :
    ∃ selected, selectProjection schema.columns projection = .ok selected ∧
      Tabular selected result.jsonl := by
  simp only [scanJsonl, bind_ok] at h
  obtain ⟨columns, hschema, _, -, _, -, footer, -, selected, hselect, _, -, hloop⟩ := h
  obtain ⟨rfl, -, hnodup⟩ := V3.validateImplementedSchema_ok hschema
  have hselected := selectProjection_mem hselect
  refine ⟨selected, hselect, ?_⟩
  -- a row group that is scanned adds lines, and one that is skipped adds none
  refine foldlM_invariant (P := fun _ s => Tabular selected s.jsonl) ?_ (Tabular.nil _) hloop
  intro _ rowGroup s s' hs hstep
  simp only [scanRowGroup, bind_ok] at hstep
  obtain ⟨mayMatch, -, hstep⟩ := hstep
  split at hstep
  · simp only [bind_ok, pure_ok] at hstep
    obtain ⟨decoded, hdecoded, jsonl, hrender, rfl⟩ := hstep
    have htyped := decodeRowGroupProjection_typed hselected hdecoded
    exact foldlM_invariant (P := fun _ out => Tabular selected out)
      (fun _ _ _ _ hout hrow => renderFilteredRow_tabular hnodup hselected htyped hout hrow) hs
        hrender
  · cases hstep
    exact hs

/-- **A decoder gives a table of its schema**, here that of `CMP4` files. -/
theorem decodeJsonl_tabular [Crc32Fast] [SerdeJson] {data : List UInt8} {schema : Schema}
    {text : String} (h : decodeJsonl data schema = .ok text) : Tabular schema.columns text := by
  simp only [decodeJsonl, bind_ok, pure_ok] at h
  obtain ⟨result, hscan, rfl⟩ := h
  obtain ⟨selected, hselect, htabular⟩ := scanJsonl_tabular hscan
  rw [selectProjection, if_pos rfl] at hselect
  cases hselect
  exact htabular

end Io.V4

/-! ### Whatever the bytes -/

namespace Storage

open Wire Io Streaming

/-- **No decoder gives anything but rows of its schema**, whatever the bytes: in any of the formats,
in the replay of a log, and in a scan with a projection and a predicate, every line is an object
with the columns that were asked for, in order, and every value is one that its column takes. -/
theorem decoded_tabular [Crc32Fast] [SerdeJson] {data : List UInt8} {schema : Schema}
    (hfit : Fits data) :
    (∀ text, Io.decodeJsonl data schema = .ok text → Tabular schema.columns text) ∧
    (∀ output, decodeJsonlStream data schema = .ok output →
      ∃ text, output = asBytes text ∧ Tabular schema.columns text) ∧
    (∀ output, replayJsonlAppendStream data schema = .ok output →
      ∃ text, output = asBytes text ∧ Tabular schema.columns text) ∧
    (∀ text, Io.V3.decodeJsonl data schema = .ok text → Tabular schema.columns text) ∧
    ∀ projection predicate result,
      Io.V4.scanJsonl data schema projection predicate = .ok result →
        ∃ selected, Io.V4.selectProjection schema.columns projection = .ok selected ∧
          Tabular selected result.jsonl := by
  refine ⟨?_, ?_, ?_, ?_, ?_⟩
  · exact fun text h => decodeJsonl_tabular h
  · exact fun output h => decodeJsonlStream_tabular hfit h
  · exact fun output h => replayJsonlAppendStream_tabular hfit h
  · exact fun text h => Io.V3.decodeJsonl_tabular h
  · exact fun projection predicate result h => Io.V4.scanJsonl_tabular h

open scoped CompactCore.Reference

set_option maxRecDepth 8192 in
/-- A file of two rows gives a table. -/
theorem decoded_tabular_two_rows : ∃ data text,
    Io.V3.encodeJsonl Reference.idLines (Reference.idSchema .stored) = .ok data ∧
      Io.V3.decodeJsonl data (Reference.idSchema .stored) = .ok text ∧
      Tabular (Reference.idSchema .stored).columns text := by
  obtain ⟨data, hdata, hfit, hdecode⟩ := Reference.exists_ok
    (x := Io.V3.encodeJsonl Reference.idLines (Reference.idSchema .stored))
    (fun data => Fits data ∧
      Io.V3.decodeJsonl data (Reference.idSchema .stored) = .ok Reference.idLines)
        (by decide +kernel)
  obtain ⟨-, -, -, htabular, -⟩ := decoded_tabular hfit
  exact ⟨data, _, hdata, hdecode, htabular _ hdecode⟩

end Storage

end CompactCore
