/-
**JSONL frames: when they are written, and what comes back.**

The encoder of a frame transposes rows into typed columns and encodes the columns one by one.  This
module says on which texts it succeeds, what the decoder makes of its output, and what can be read
off the output without decoding a value.

Main definitions:

* `CompactCore.Io.encodeJsonl`, `CompactCore.Io.inspectJsonl` — writing and inspecting a frame;
* `CompactCore.Io.Encodable` — what the encoder asks of rows;
* `CompactCore.Io.InMemory` — what a 64-bit machine can hold of them.

Main results:

* `CompactCore.Io.exists_encodeJsonlRowGroup` — **the encoder succeeds exactly on encodable rows**;
* `CompactCore.Io.inspectJsonl_encodeJsonl` — a frame lists the columns of its schema;
* `CompactCore.Io.encodeJsonl_spec` — the three statements together.
-/

import CompactCore.Io.ColumnBlock
import CompactCore.Reference
import Mathlib.Data.List.Chain
import Mathlib.Data.List.Flatten
import Mathlib.Data.List.Nodup

set_option relaxedAutoImplicit false
set_option autoImplicit false

namespace CompactCore.Io

open Wire CompactError

/-! ### Frames -/

/-- Encode JSONL rows using required schema columns. -/
def encodeJsonl [Crc32Fast] [SerdeJson] (input : String) (schema : Schema) :
    Result (List UInt8) := do
  let rowGroup ← encodeJsonlRowGroup input schema
  return Framing.encodeV1 .columnBlock rowGroup.payload

structure ColumnInspect where
  name : String
  codec : SchemaCodec
  rowCount : ℕ
  payloadLen : ℕ
  deriving DecidableEq, Repr

structure JsonlInspect where
  outerCodec : Codec
  payloadLen : ℕ
  columns : List ColumnInspect
  deriving DecidableEq, Repr

def idToSchemaCodec (id : UInt8) : Result SchemaCodec :=
  if id = 0x01 then .ok .rle
  else if id = 0x02 then .ok .deltaVarintU64
  else if id = 0x05 then .ok .dictionary
  else .error (unsupported "column codec id")

/-- The head of one column, and past its payload. -/
def inspectColumnBlock : Reader CompactError ColumnInspect := do
  let nameLen ← readUInt16 (readBytes "column name length is truncated")
  let nameBytes ← readBytes "column name is truncated" nameLen.toNat
  let name ← okOr (invalidInput "column name must be utf-8") (fromUtf8 nameBytes)
  let codecId ← readUInt8 (readBytes "column codec is truncated")
  let codec ← idToSchemaCodec codecId
  let rowCount ← readUInt64 (readBytes "column row count is truncated")
  let rowCount ← tryUsize rowCount "column row count is too large"
  let payloadLen ← readUInt64 (readBytes "column payload length is truncated")
  let payloadLen ← tryUsize payloadLen "column payload length is too large"
  let _ ← readBytes "column payload is truncated" payloadLen
  return ⟨name, codec, rowCount, payloadLen⟩

def inspectBlock : Reader CompactError (List ColumnInspect) := do
  let magic ← readBytes "column block header is truncated" 4
  failIf (magic ≠ columnBlockMagic) (invalidInput "invalid column block magic")
  let columnCount ← readUInt32 (readBytes "column block count is truncated")
  Reader.repeatRead inspectColumnBlock columnCount.toNat

def inspectColumnBlocks (data : List UInt8) : Result (List ColumnInspect) := do
  let (columns, cursor) ← inspectBlock data 0
  failIf (cursor ≠ data.length) (invalidInput "column block has trailing bytes")
  return columns

def inspectJsonl [Crc32Fast] (frame : List UInt8) : Result JsonlInspect := do
  let outer ← Framing.decodeV1 frame
  failIf (outer.codec ≠ .columnBlock) (invalidInput "frame is not a jsonl column block")
  let columns ← inspectColumnBlocks outer.payload
  return ⟨outer.codec, outer.payload.length, columns⟩

/-! ### Inspection -/

@[simp] theorem idToSchemaCodec_ok {id : UInt8} {codec : SchemaCodec} :
    idToSchemaCodec id = .ok codec ↔ codecToId codec = .ok id := by
  unfold idToSchemaCodec
  constructor
  · intro h
    split_ifs at h with h₁ h₂ h₃ <;> cases h
    · rw [h₁]
      rfl
    · rw [h₂]
      rfl
    · rw [h₃]
      rfl
  · intro h
    cases codec <;> cases h <;> rfl

/-- Inspecting a column finds what the writer was given. -/
theorem inspectColumnBlock_write {column : ColumnSchema} {rowCount c : ℕ}
    {data payload block : List UInt8} (hfit : Fits data)
    (hwrite : writeColumnBlock column rowCount payload = .ok block) (hat : At data c block) :
    inspectColumnBlock data c =
      .ok (⟨column.name, column.codec, rowCount, payload.length⟩, c + block.length) := by
  simp only [writeColumnBlock, bind_ok, tryU16_ok, tryU64_ok, pure_ok] at hwrite
  obtain ⟨nameLen, hname, rows, hrows, payloadLen, hpayload, id, hid, rfl⟩ := hwrite
  rw [at_append, at_append, at_append, at_append, at_append, length_le16, length_le64,
    List.length_singleton] at hat
  obtain ⟨hat₁, hat₂, hat₃, hat₄, hat₅, hat₆⟩ := hat
  simp only [inspectColumnBlock, readBytes, Reader.bind_ok, readUInt16_ok hfit, readUInt8_ok hfit,
    readUInt64_ok hfit, readExact_ok hfit, Reader.lift_ok, okOr_ok, fromUtf8_eq_some,
    idToSchemaCodec_ok, tryUsize_eq, Except.ok.injEq, Reader.pure_ok, ColumnInspect.mk.injEq]
  refine ⟨nameLen, _, ⟨hat₁, rfl⟩, _, _, ⟨hat₂, hname.symm, rfl⟩, column.name, _, ⟨rfl, rfl⟩, id, _,
    ⟨?_, rfl⟩, column.codec, _, ⟨hid, rfl⟩, rows, _, ⟨?_, rfl⟩, _, _, ⟨rfl, rfl⟩, payloadLen, _,
    ⟨?_, rfl⟩, _, _, ⟨rfl, rfl⟩, payload, _, ⟨?_, hpayload.symm, rfl⟩,
    ⟨rfl, rfl, hrows, hpayload⟩, ?_⟩
  · rwa [hname]
  · rwa [hname]
  · rwa [hname]
  · rwa [hname]
  · simp only [List.length_append, length_le16, length_le64, List.length_singleton]
    omega

/-- The blocks of columns are written one after the other. -/
theorem writeColumnBlocks_ok {rowCount : ℕ} {pairs : List (ColumnSchema × ColumnValues)}
    {blocks : List UInt8} : writeColumnBlocks rowCount pairs = .ok blocks ↔
      ∃ parts, List.Forall₂ (fun (pair : ColumnSchema × ColumnValues) block =>
        ∃ payload, pair.2.encode pair.1 = .ok payload ∧
          writeColumnBlock pair.1 rowCount payload = .ok block) pairs parts ∧
        blocks = parts.flatten := by
  induction pairs generalizing blocks with
  | nil => simp [writeColumnBlocks, eq_comm]
  | cons pair pairs ih =>
      obtain ⟨column, values⟩ := pair
      simp only [writeColumnBlocks, bind_ok, pure_ok, ih, List.forall₂_cons_left_iff]
      constructor
      · intro h
        obtain ⟨payload, henc, block, hblock, _, ⟨parts, hparts, rfl⟩, rfl⟩ := h
        exact ⟨block :: parts, ⟨block, parts, ⟨payload, henc, hblock⟩, hparts, rfl⟩, rfl⟩
      · intro h
        obtain ⟨_, ⟨block, parts, ⟨payload, henc, hblock⟩, hparts, rfl⟩, rfl⟩ := h
        exact ⟨payload, henc, block, hblock, _, ⟨parts, hparts, rfl⟩, rfl⟩

/-- The block of a column, and what inspecting it finds. -/
def Inspected (rowCount : ℕ) (inspect : ColumnInspect) (block : List UInt8) : Prop :=
  ∃ column payload, inspect = ⟨column.name, column.codec, rowCount, payload.length⟩ ∧
    writeColumnBlock column rowCount payload = .ok block

theorem exists_inspected {rowCount : ℕ} {columns : List ColumnSchema}
    {columnValues : List ColumnValues} {parts : List (List UInt8)}
    (hlen : columns.length = columnValues.length)
    (h : List.Forall₂ (fun (pair : ColumnSchema × ColumnValues) block =>
      ∃ payload, pair.2.encode pair.1 = .ok payload ∧
        writeColumnBlock pair.1 rowCount payload = .ok block) (columns.zip columnValues) parts) :
    ∃ found, List.Forall₂ (Inspected rowCount) found parts ∧
      found.map (fun column => (column.name, column.codec, column.rowCount)) =
        columns.map fun column => (column.name, column.codec, rowCount) := by
  induction columns generalizing columnValues parts with
  | nil =>
      obtain rfl := List.forall₂_nil_left_iff.1 h
      exact ⟨[], List.Forall₂.nil, rfl⟩
  | cons column columns ih =>
      cases columnValues with
      | nil => cases hlen
      | cons values columnValues =>
          rw [List.zip_cons_cons] at h
          obtain ⟨block, rest, ⟨payload, _, hblock⟩, hrest, rfl⟩ := List.forall₂_cons_left_iff.1 h
          obtain ⟨found, hfound, hmap⟩ := ih (by simpa using hlen) hrest
          refine ⟨⟨column.name, column.codec, rowCount, payload.length⟩ :: found,
            List.Forall₂.cons ⟨column, payload, rfl, hblock⟩ hfound, ?_⟩
          rw [List.map_cons, List.map_cons, hmap]

/-- **A frame lists the columns of its schema**: their names and codecs in order, each with a value
for every row. -/
theorem inspectJsonl_encodeJsonl [Crc32Fast] [SerdeJson] {input : String} {schema : Schema}
    {frame : List UInt8} {rows : List Map} (h : encodeJsonl input schema = .ok frame)
    (hrows : parseRows input = .ok rows) (hfit : Fits frame) :
    ∃ inspect, inspectJsonl frame = .ok inspect ∧ inspect.outerCodec = .columnBlock ∧
      inspect.columns.map (fun column => (column.name, column.codec, column.rowCount)) =
        schema.columns.map fun column => (column.name, column.codec, rows.length) := by
  simp only [encodeJsonl, bind_ok, pure_ok] at h
  obtain ⟨group, hgroup, rfl⟩ := h
  obtain ⟨rows', columnValues, columnCount, blocks, hrows', hcols, hholds, hcount, hblocks, rfl⟩ :=
    encodeJsonlRowGroup_ok hgroup
  rw [hrows, Except.ok.injEq] at hrows'
  subst hrows'
  have hfit' : Fits (columnBlockMagic ++ (le32 columnCount ++ blocks)) :=
    Framing.fits_payload hfit
  have hat := at_self (columnBlockMagic ++ (le32 columnCount ++ blocks))
  obtain ⟨parts, hparts, rfl⟩ := writeColumnBlocks_ok.1 hblocks
  obtain ⟨found, hfound, hmap⟩ := exists_inspected hholds.length_eq hparts
  have hlen : found.length = columnCount.toNat := by
    have := congrArg List.length hmap
    rw [List.length_map, List.length_map] at this
    rw [this, hcount]
  have hread : Reader.repeatRead inspectColumnBlock found.length
      (columnBlockMagic ++ (le32 columnCount ++ parts.flatten)) 8 =
        .ok (found, 8 + parts.flatten.length) := by
    refine Reader.repeatRead_complete hfound ?_ (at_append.1 (at_append.1 hat).2).2
    rintro _ - block c ⟨column, payload, rfl, hblock⟩ hblockAt
    exact inspectColumnBlock_write hfit' hblock hblockAt
  have hparse : inspectColumnBlocks (columnBlockMagic ++ (le32 columnCount ++ parts.flatten)) =
      .ok found := by
    simp only [inspectColumnBlocks, inspectBlock, readBytes, bind_ok, Prod.exists, Reader.bind_ok,
      readExact_ok hfit', readUInt32_ok hfit', Reader.lift_ok, failIf_ok, not_not, pure_ok]
    refine ⟨_, _, ⟨_, _, ⟨(at_append.1 hat).1, rfl, rfl⟩, (), _, ⟨rfl, rfl⟩, columnCount, _,
      ⟨(at_append.1 (at_append.1 hat).2).1, rfl⟩, hlen ▸ hread⟩, (), ?_, rfl⟩
    rw [List.length_append, List.length_append, length_le32, columnBlockMagic]
    simp only [List.length_cons, List.length_nil]
    omega
  refine ⟨⟨.columnBlock, (columnBlockMagic ++ (le32 columnCount ++ parts.flatten)).length, found⟩,
    ?_, rfl, hmap⟩
  simp only [inspectJsonl, bind_ok, failIf_ok, not_not, pure_ok]
  exact ⟨⟨.columnBlock, columnBlockMagic ++ (le32 columnCount ++ parts.flatten)⟩,
    (Framing.decodeV1_ok hfit).2 rfl, (), rfl, found, hparse, rfl⟩

/-! ### When the encoder succeeds -/

/-- A value has the type of a column. -/
def HasType : SchemaValueType → Value → Prop
  | .bool, value => ∃ b, value = .bool b
  | .string, value => ∃ s, value = .string s
  | .u64, value => ∃ v, value = .number (.posInt v)

/-- The numbers that the rows have under the name of a column. -/
def columnNumbers (column : ColumnSchema) (rows : List Map) : List UInt64 :=
  rows.filterMap fun row => (row.get column.name).bind Value.asU64

/-- What the encoder asks of rows: every row gives every column a value of its type, and the
numbers of a column never decrease. -/
structure Encodable (columns : List ColumnSchema) (rows : List Map) : Prop where
  typed : ∀ row ∈ rows, ∀ column ∈ columns, ∃ value, row.get column.name = some value ∧
    HasType column.valueType value
  sorted : ∀ column ∈ columns, column.valueType = .u64 →
    (columnNumbers column rows).IsChain (· ≤ ·)

/-- What a 64-bit machine can hold: a vector has fewer than `2 ^ 60` elements of eight bytes, and
the run-length coder reserves twice the bytes of its input. -/
structure InMemory (columns : List ColumnSchema) (rows : List Map) : Prop where
  rows_lt : rows.length < 2 ^ 60
  strings_lt : ∀ column ∈ columns,
    ((columnStrings column rows).flatMap Strings.lenPrefixed).length < 2 ^ 62

theorem columnNumbers_eq {column : ColumnSchema} {rows : List Map} {values : List UInt64}
    (h : List.Forall₂ (fun row value => row.get column.name = some (.number (.posInt value)))
      rows values) : columnNumbers column rows = values := by
  induction h with
  | nil => rfl
  | cons hrow _ ih =>
      rw [columnNumbers, List.filterMap_cons, hrow]
      exact congrArg _ ih

/-- The values of a column that holds rows have its type. -/
theorem ColumnValues.Holds.typed {column : ColumnSchema} {rows : List Map} {values : ColumnValues}
    (h : values.Holds column rows) {row : Map} (hrow : row ∈ rows) :
    ∃ value, row.get column.name = some value ∧ HasType column.valueType value := by
  obtain ⟨i, hi, rfl⟩ := List.getElem_of_mem hrow
  refine ⟨_, h.valueAt hi, ?_⟩
  cases values with
  | u64 vs =>
      rw [h.1]
      exact ⟨_, rfl⟩
  | string vs =>
      rw [h.1]
      exact ⟨_, rfl⟩

/-- A column takes the value of a row that has its type. -/
theorem ColumnValues.Holds.exists_push {column : ColumnSchema} {rows : List Map}
    {values : ColumnValues} (h : values.Holds column rows) {raw : Value}
    (htype : HasType column.valueType raw) : ∃ values', values.pushJson raw = .ok values' := by
  cases values with
  | u64 vs =>
      rw [h.1] at htype
      obtain ⟨v, rfl⟩ := htype
      exact ⟨_, rfl⟩
  | string vs =>
      rw [h.1] at htype
      obtain ⟨v, rfl⟩ := htype
      exact ⟨_, rfl⟩

theorem exists_pushRow {columns : List ColumnSchema} {rows : List Map} {row : Map}
    {columnValues : List ColumnValues}
    (h : List.Forall₂ (fun column values => ColumnValues.Holds column rows values) columns
      columnValues)
    (hrow : ∀ column ∈ columns, ∃ value, row.get column.name = some value ∧
      HasType column.valueType value) :
    ∃ columnValues', pushRow columns columnValues row = .ok columnValues' := by
  induction h with
  | nil => exact ⟨[], rfl⟩
  | @cons column values columns columnValues hcol _ ih =>
      obtain ⟨raw, hraw, htype⟩ := hrow column List.mem_cons_self
      obtain ⟨values', hvalues⟩ := hcol.exists_push htype
      obtain ⟨rest, hrest⟩ := ih fun c hc => hrow c (List.mem_cons_of_mem _ hc)
      refine ⟨values' :: rest, ?_⟩
      simp only [pushRow, List.zip_cons_cons, List.mapM_cons, bind_ok, okOr_ok, pure_ok]
      exact ⟨values', ⟨raw, hraw, hvalues⟩, rest, hrest, rfl⟩

theorem exists_new {column : ColumnSchema} (h : column.supported = true) :
    ∃ values, ColumnValues.new column = .ok values := by
  unfold ColumnSchema.supported at h
  split at h
  · rename_i htype hcodec _
    exact ⟨.u64 [], by rw [ColumnValues.new, htype, hcodec]⟩
  · rename_i htype hcodec _
    exact ⟨.string [], by rw [ColumnValues.new, htype, hcodec]⟩
  · rename_i htype hcodec _
    exact ⟨.string [], by rw [ColumnValues.new, htype, hcodec]⟩
  · cases h

/-- A stored string is at least as long as the string. -/
theorem lt_of_mem_strings {value : String} {values : List String} {n : ℕ} (hmem : value ∈ values)
    (hlt : (values.flatMap Strings.lenPrefixed).length < n) : (asBytes value).length < n := by
  have hsub : (Strings.lenPrefixed value).length ≤
      (values.flatMap Strings.lenPrefixed).length :=
    (List.sublist_flatten_of_mem (List.mem_map_of_mem hmem)).length_le
  rw [Strings.lenPrefixed, List.length_append] at hsub
  omega

/-- **A column is encoded** when its numbers never decrease, and its payload is addressable. -/
theorem ColumnValues.Holds.exists_encode {column : ColumnSchema} {rows : List Map}
    {values : ColumnValues} (h : values.Holds column rows) (hsup : column.supported = true)
    (hsorted : column.valueType = .u64 → (columnNumbers column rows).IsChain (· ≤ ·))
    (hrows : rows.length < 2 ^ 60)
    (hstrings : ((columnStrings column rows).flatMap Strings.lenPrefixed).length < 2 ^ 62) :
    ∃ payload, values.encode column = .ok payload ∧ payload.length < 2 ^ 64 := by
  cases values with
  | u64 vs =>
      have hcodec : column.codec = .deltaVarintU64 := by
        unfold ColumnSchema.supported at hsup
        split at hsup <;> simp_all [ColumnValues.Holds]
      have hchain := hsorted h.1
      rw [columnNumbers_eq h.2] at hchain
      obtain ⟨payload, hpayload⟩ := DeltaVarint.exists_encodeU64.2 hchain
      have hle := DeltaVarint.length_encodeU64_le hpayload
      rw [← h.2.length_eq] at hle
      refine ⟨payload, ?_, by omega⟩
      rw [ColumnValues.encode, ColumnSchema.encodeConfig, h.1, hcodec]
      exact hpayload
  | string vs =>
      have hcodec : column.codec = .dictionary ∨ column.codec = .rle := by
        unfold ColumnSchema.supported at hsup
        split at hsup <;> simp_all [ColumnValues.Holds]
      rw [columnStrings_eq h.2] at hstrings
      rcases hcodec with hcodec | hcodec
      · have hlen := h.2.length_eq
        obtain ⟨s, hs⟩ : ∃ s, Dictionary.internAll newDictionaryId vs = .ok s :=
          Dictionary.exists_internAll fun n hn => ⟨UInt64.ofNat n, by
            rw [newDictionaryId, tryU64_ok, UInt64.toNat_ofNat']
            exact Nat.mod_eq_of_lt (by omega)⟩
        have hsub := Dictionary.internAll_sublist hs
        have hids := (Dictionary.internAll_holds (fun n id hid => by
          rwa [newDictionaryId, tryU64_ok] at hid) hs).ids_eq.length_eq
        have hentries := (hsub.flatMap Strings.lenPrefixed).length_le
        refine ⟨Dictionary.payload s.dictionary s.ids, ?_, ?_⟩
        · simp only [ColumnValues.encode, hcodec, encodeDictionaryValues, bind_ok,
            Strings.encodeAll_ok, pure_ok]
          refine ⟨s, hs, _, ⟨fun value hvalue => ?_, rfl⟩, rfl⟩
          exact (lt_of_mem_strings (hsub.subset hvalue) hstrings).trans (by decide)
        · have hhead := Varint.length_encodeU64_le [UInt64.ofNat s.dictionary.length]
          have htail := Varint.length_encodeU64_le s.ids
          rw [List.length_singleton] at hhead
          simp only [Dictionary.payload, List.length_append]
          omega
      · refine ⟨Rle.encodeRle (vs.flatMap Strings.lenPrefixed), ?_, ?_⟩
        · simp only [ColumnValues.encode, hcodec, encodeStringValues, bind_ok,
            Strings.encodeAll_ok, pure_ok]
          exact ⟨_, ⟨fun value hvalue => (lt_of_mem_strings hvalue hstrings).trans (by decide),
            rfl⟩, rfl⟩
        · have hle := Rle.length_encodeRle_le (vs.flatMap Strings.lenPrefixed)
          omega

/-- What encoding a column says about its numbers. -/
theorem ColumnValues.Holds.sorted {column : ColumnSchema} {rows : List Map}
    {values : ColumnValues} {payload : List UInt8} (h : values.Holds column rows)
    (hsup : column.supported = true) (henc : values.encode column = .ok payload)
    (htype : column.valueType = .u64) : (columnNumbers column rows).IsChain (· ≤ ·) := by
  cases values with
  | u64 vs =>
      have hcodec : column.codec = .deltaVarintU64 := by
        unfold ColumnSchema.supported at hsup
        split at hsup <;> simp_all [ColumnValues.Holds]
      rw [ColumnValues.encode, ColumnSchema.encodeConfig, h.1, hcodec] at henc
      rw [columnNumbers_eq h.2]
      exact DeltaVarint.exists_encodeU64.1 ⟨payload, henc⟩
  | string vs =>
      have hstring := h.1
      rw [htype] at hstring
      cases hstring

/-- The loop body of the encoder. -/
def collectLine [SerdeJson] (columns : List ColumnSchema) (state : List ColumnValues × ℕ)
    (line : String) : Result (List ColumnValues × ℕ) := do
  let row ← parseJsonlObject line
  let columnValues ← pushRow columns state.1 row
  return (columnValues, state.2 + 1)

/-- Every text of typed rows is collected into columns. -/
theorem exists_columnValues [SerdeJson] {columns : List ColumnSchema} {initial : List ColumnValues}
    {texts : List String} {rows : List Map} (hrows : texts.mapM parseJsonlObject = .ok rows)
    (hnew : List.Forall₂ (fun column values => ColumnValues.Holds column [] values) columns initial)
    (htyped : ∀ row ∈ rows, ∀ column ∈ columns, ∃ value, row.get column.name = some value ∧
      HasType column.valueType value) :
    ∃ columnValues, texts.foldlM (collectLine columns) (initial, 0) =
        .ok (columnValues, rows.length) ∧
      List.Forall₂ (fun column values => ColumnValues.Holds column rows values) columns
        columnValues := by
  have hparsed := mapM_ok.1 hrows
  have hlen := hparsed.length_eq
  -- after every line, the columns hold the rows parsed so far
  have hstep : ∀ (done : List String) line rest (state : List ColumnValues × ℕ),
      texts = done ++ line :: rest →
      (state.2 = done.length ∧ List.Forall₂ (fun column values =>
        ColumnValues.Holds column (rows.take done.length) values) columns state.1) →
      ∃ state', collectLine columns state line = .ok state' ∧
        (state'.2 = (done ++ [line]).length ∧ List.Forall₂ (fun column values =>
          ColumnValues.Holds column (rows.take (done ++ [line]).length) values)
          columns state'.1) := by
    intro done line rest state htexts hstate
    obtain ⟨hcount, hholds⟩ := hstate
    have hlt : done.length < texts.length := by
      rw [htexts, List.length_append, List.length_cons]
      omega
    have hlt' : done.length < rows.length := hlen ▸ hlt
    have hrow : parseJsonlObject line = .ok rows[done.length] := by
      have hget := (List.forall₂_iff_get.1 hparsed).2 done.length hlt hlt'
      simpa [htexts] using hget
    obtain ⟨columnValues', hpush⟩ := exists_pushRow hholds (htyped _ (List.getElem_mem hlt'))
    refine ⟨(columnValues', state.2 + 1), ?_, ?_, ?_⟩
    · simp only [collectLine, bind_ok, pure_ok]
      exact ⟨_, hrow, columnValues', hpush, rfl⟩
    · rw [hcount, List.length_append]
      rfl
    · rw [List.length_append, List.length_singleton, List.take_succ_eq_append_getElem hlt']
      exact holds_pushRow hholds hpush
  obtain ⟨⟨columnValues, count⟩, hfold, rfl, hholds⟩ :=
    exists_foldlM hstep (s := (initial, 0)) ⟨rfl, hnew⟩
  rw [hlen] at hfold
  rw [hlen, List.take_length] at hholds
  exact ⟨columnValues, hfold, hholds⟩

/-- The columns of a supported schema are written when their payloads are addressable. -/
theorem exists_writeColumnBlocks {columns : List ColumnSchema} {columnValues : List ColumnValues}
    {rows : List Map} (hsup : ∀ column ∈ columns, column.supported = true)
    (hholds : List.Forall₂ (fun column values => ColumnValues.Holds column rows values) columns
      columnValues)
    (hencodable : Encodable columns rows) (hmem : InMemory columns rows)
    (hnames : ∀ column ∈ columns, (asBytes column.name).length ≤ 65535) :
    ∃ blocks, writeColumnBlocks rows.length (columns.zip columnValues) = .ok blocks := by
  have hrows := hmem.rows_lt
  induction hholds with
  | nil => exact ⟨[], rfl⟩
  | @cons column values columns columnValues hcol _ ih =>
      have hcolumn : column ∈ column :: columns := List.mem_cons_self
      obtain ⟨payload, henc, hpayload⟩ := hcol.exists_encode (hsup column hcolumn)
        (hencodable.sorted column hcolumn) hrows (hmem.strings_lt column hcolumn)
      obtain ⟨blocks, hblocks⟩ := ih (fun c hc => hsup c (List.mem_cons_of_mem _ hc))
        ⟨fun row hrow c hc => hencodable.typed row hrow c (List.mem_cons_of_mem _ hc),
          fun c hc => hencodable.sorted c (List.mem_cons_of_mem _ hc)⟩
        ⟨hrows, fun c hc => hmem.strings_lt c (List.mem_cons_of_mem _ hc)⟩
        (fun c hc => hnames c (List.mem_cons_of_mem _ hc))
      have hname := hnames column hcolumn
      obtain ⟨id, hid⟩ : ∃ id, codecToId column.codec = .ok id := by
        have hcolumn := hsup column hcolumn
        unfold ColumnSchema.supported at hcolumn
        split at hcolumn
        · exact ⟨0x02, by rw [‹column.codec = _›]; rfl⟩
        · exact ⟨0x05, by rw [‹column.codec = _›]; rfl⟩
        · exact ⟨0x01, by rw [‹column.codec = _›]; rfl⟩
        · cases hcolumn
      obtain ⟨block, hblock⟩ : ∃ block,
          writeColumnBlock column rows.length payload = .ok block := by
        simp only [writeColumnBlock, bind_ok, tryU16_ok, tryU64_ok, pure_ok]
        refine ⟨_, UInt16.ofNat (asBytes column.name).length, ?_, UInt64.ofNat rows.length, ?_,
          UInt64.ofNat payload.length, ?_, id, hid, rfl⟩
        · rw [UInt16.toNat_ofNat']
          exact Nat.mod_eq_of_lt (by omega)
        · exact toNat_ofNat (by omega)
        · exact toNat_ofNat hpayload
      refine ⟨block ++ blocks, ?_⟩
      simp only [List.zip_cons_cons, writeColumnBlocks, bind_ok, pure_ok]
      exact ⟨payload, henc, block, hblock, blocks, hblocks, rfl⟩

/-- **The encoder succeeds exactly on encodable rows**, under a schema whose names and whose number
of columns fit their fields. -/
theorem exists_encodeJsonlRowGroup [SerdeJson] {input : String} {schema : Schema}
    (hcols : schema.supportedColumns = .ok schema.columns)
    (hmem : ∀ rows, parseRows input = .ok rows → InMemory schema.columns rows) :
    (∃ group, encodeJsonlRowGroup input schema = .ok group) ↔
      (∃ rows, parseRows input = .ok rows ∧ Encodable schema.columns rows) ∧
        (∀ column ∈ schema.columns, (asBytes column.name).length ≤ 65535) ∧
        schema.columns.length < 2 ^ 32 := by
  obtain ⟨-, -, -, -, hsup⟩ := Schema.supportedColumns_ok.1 hcols
  constructor
  · rintro ⟨group, hgroup⟩
    obtain ⟨rows, columnValues, columnCount, blocks, hrows, -, hholds, hcount, hblocks, -⟩ :=
      encodeJsonlRowGroup_ok hgroup
    obtain ⟨parts, hparts, -⟩ := writeColumnBlocks_ok.1 hblocks
    -- every column holds the rows, and has been encoded and written
    have hcolumn : ∀ column ∈ schema.columns,
        ∃ (values : ColumnValues) (payload block : List UInt8), values.Holds column rows ∧
          values.encode column = .ok payload ∧
          writeColumnBlock column rows.length payload = .ok block := by
      intro column hmem
      obtain ⟨i, hi, rfl⟩ := List.getElem_of_mem hmem
      have hi' : i < columnValues.length := hholds.length_eq ▸ hi
      have hz : i < (schema.columns.zip columnValues).length := by
        rw [List.length_zip]
        omega
      obtain ⟨payload, henc, hblock⟩ :=
        (List.forall₂_iff_get.1 hparts).2 i hz (hparts.length_eq ▸ hz)
      simp only [List.get_eq_getElem, List.getElem_zip] at henc hblock
      exact ⟨columnValues[i], payload, _, (List.forall₂_iff_get.1 hholds).2 i hi hi', henc, hblock⟩
    refine ⟨⟨rows, hrows, ?_, ?_⟩, ?_, ?_⟩
    · intro row hrow column hmem
      obtain ⟨values, _, _, hcol, -⟩ := hcolumn column hmem
      exact hcol.typed hrow
    · intro column hmem htype
      obtain ⟨values, payload, _, hcol, henc, -⟩ := hcolumn column hmem
      exact hcol.sorted (hsup column hmem) henc htype
    · intro column hmem
      obtain ⟨_, payload, block, -, -, hblock⟩ := hcolumn column hmem
      simp only [writeColumnBlock, bind_ok, tryU16_ok] at hblock
      obtain ⟨nameLen, hname, -⟩ := hblock
      have hlt := nameLen.toNat_lt
      omega
    · rw [← hcount]
      exact columnCount.toNat_lt
  · rintro ⟨⟨rows, hrows, hencodable⟩, hnames, hcount⟩
    have hmem := hmem rows hrows
    obtain ⟨initial, hnew⟩ : ∃ initial, schema.columns.mapM ColumnValues.new = .ok initial :=
      exists_mapM fun column hcolumn => exists_new (hsup column hcolumn)
    have hempty : List.Forall₂ (fun column values => ColumnValues.Holds column [] values)
        schema.columns initial := (mapM_ok.1 hnew).imp fun _ _ => ColumnValues.Holds.new
    obtain ⟨columnValues, hfold, hholds⟩ := exists_columnValues hrows hempty hencodable.typed
    obtain ⟨blocks, hblocks⟩ := exists_writeColumnBlocks hsup hholds hencodable hmem hnames
    refine ⟨⟨rows.length, (asBytes input).length,
      columnBlockMagic ++ (le32 (UInt32.ofNat schema.columns.length) ++ blocks)⟩, ?_⟩
    simp only [encodeJsonlRowGroup, bind_ok, tryU32_ok, pure_ok]
    refine ⟨schema.columns, hcols, initial, hnew, (columnValues, rows.length), hfold,
      UInt32.ofNat schema.columns.length, ?_, blocks, hblocks, rfl⟩
    rw [UInt32.toNat_ofNat']
    exact Nat.mod_eq_of_lt hcount

/-! ### Frames as a whole -/

/-- **Frames.**  What is written under a supported schema is read back and listed, and a text is
written exactly when its rows are encodable. -/
theorem encodeJsonl_spec [Crc32Fast] [SerdeJson] {schema : Schema}
    (hcols : schema.supportedColumns = .ok schema.columns) (input : String) :
    (∀ frame, Fits frame → encodeJsonl input schema = .ok frame →
      ∃ rows, parseRows input = .ok rows ∧
        (RleWithinLimit schema.columns rows →
          decodeJsonl frame schema = .ok (renderRows schema.columns rows)) ∧
        ∃ inspect, inspectJsonl frame = .ok inspect ∧ inspect.outerCodec = .columnBlock ∧
          inspect.columns.map (fun column => (column.name, column.codec, column.rowCount)) =
            schema.columns.map fun column => (column.name, column.codec, rows.length)) ∧
      ((∀ rows, parseRows input = .ok rows → InMemory schema.columns rows) →
        ((∃ frame, encodeJsonl input schema = .ok frame) ↔
          (∃ rows, parseRows input = .ok rows ∧ Encodable schema.columns rows) ∧
            (∀ column ∈ schema.columns, (asBytes column.name).length ≤ 65535) ∧
            schema.columns.length < 2 ^ 32)) := by
  constructor
  · intro frame hfit h
    have hencode := h
    simp only [encodeJsonl, bind_ok, pure_ok] at h
    obtain ⟨group, hgroup, rfl⟩ := h
    obtain ⟨rows, -, -, -, hrows, -⟩ := encodeJsonlRowGroup_ok hgroup
    exact ⟨rows, hrows, decodeJsonl_encodeJsonlRowGroup hgroup hrows hfit,
      inspectJsonl_encodeJsonl hencode hrows hfit⟩
  · intro hmem
    rw [← exists_encodeJsonlRowGroup hcols hmem]
    simp only [encodeJsonl, bind_ok, pure_ok]
    constructor
    · rintro ⟨_, group, hgroup, rfl⟩
      exact ⟨group, hgroup⟩
    · rintro ⟨group, hgroup⟩
      exact ⟨_, group, hgroup, rfl⟩

/-! ### The width of the column count -/

/-- The low 32 bits of a number, as a name. -/
def bitName (i : ℕ) : String :=
  String.join ((List.range 32).map fun j => if i.testBit j then "1" else "0")

theorem asBytes_bitName (i : ℕ) :
    asBytes (bitName i) = (List.range 32).map fun j => if i.testBit j then 49 else 48 := by
  have hbit : ∀ b : Bool, asBytes (if b then "1" else "0") = [if b then 49 else 48] := by decide
  rw [bitName, asBytes_join, List.flatMap_map]
  simp only [hbit]
  exact List.flatMap_pure_eq_map ..

theorem length_bitName (i : ℕ) : (asBytes (bitName i)).length = 32 := by
  rw [asBytes_bitName, List.length_map, List.length_range]

theorem bitName_inj {i k : ℕ} (hi : i < 2 ^ 32) (hk : k < 2 ^ 32) (h : bitName i = bitName k) :
    i = k := by
  have hbytes := congrArg asBytes h
  rw [asBytes_bitName, asBytes_bitName, List.map_inj_left] at hbytes
  refine Nat.eq_of_testBit_eq fun j => ?_
  by_cases hj : j < 32
  · have hbit := hbytes j (List.mem_range.2 hj)
    cases hi' : i.testBit j <;> cases hk' : k.testBit j <;> simp [hi', hk'] at hbit ⊢
  · have hle : 2 ^ 32 ≤ 2 ^ j := Nat.pow_le_pow_right (by omega) (by omega)
    rw [Nat.testBit_lt_two_pow (by omega), Nat.testBit_lt_two_pow (by omega)]

/-- A schema of `n` columns of numbers. -/
def wideSchema (n : ℕ) : Schema :=
  ⟨(List.range n).map fun i => ⟨bitName i, .u64, .deltaVarintU64, false⟩⟩

theorem mem_wideSchema {n : ℕ} {column : ColumnSchema} (h : column ∈ (wideSchema n).columns) :
    ∃ i, column = ⟨bitName i, .u64, .deltaVarintU64, false⟩ := by
  obtain ⟨i, -, rfl⟩ := List.mem_map.1 h
  exact ⟨i, rfl⟩

theorem length_wideSchema (n : ℕ) : (wideSchema n).columns.length = n := by
  rw [wideSchema, List.length_map, List.length_range]

theorem wideSchema_supported {n : ℕ} (hpos : 0 < n) (hn : n ≤ 2 ^ 32) :
    (wideSchema n).supportedColumns = .ok (wideSchema n).columns := by
  refine Schema.supportedColumns_ok.2 ⟨rfl, ?_, ?_, ?_, ?_⟩
  · intro hnil
    have hlen := length_wideSchema n
    rw [hnil, List.length_nil] at hlen
    omega
  · intro column hcolumn hempty
    obtain ⟨i, rfl⟩ := mem_wideSchema hcolumn
    have hlen := length_bitName i
    rw [show bitName i = "" from hempty] at hlen
    cases hlen
  · rw [wideSchema, List.map_map]
    refine List.Nodup.map_on ?_ List.nodup_range
    intro i hi k hk heq
    rw [List.mem_range] at hi hk
    exact bitName_inj (by omega) (by omega) heq
  · intro column hcolumn
    obtain ⟨i, rfl⟩ := mem_wideSchema hcolumn
    rfl

/-- The field of the column count has `2 ^ 32` values. -/
theorem encodeJsonl_wide_ne [Crc32Fast] [SerdeJson] {n : ℕ} (hn : 2 ^ 32 ≤ n) (input : String)
    (frame : List UInt8) : encodeJsonl input (wideSchema n) ≠ .ok frame := by
  intro hframe
  simp only [encodeJsonl, bind_ok] at hframe
  obtain ⟨group, hgroup, -⟩ := hframe
  obtain ⟨-, -, columnCount, -, -, -, -, hcount, -⟩ := encodeJsonlRowGroup_ok hgroup
  rw [length_wideSchema] at hcount
  have hlt := columnCount.toNat_lt
  omega

open scoped CompactCore.Reference

/-- The empty text is refused under a schema of `2 ^ 32` columns, whose names are short. -/
theorem encodeJsonl_wideSchema :
    (wideSchema (2 ^ 32)).supportedColumns = .ok (wideSchema (2 ^ 32)).columns ∧
      parseRows "" = .ok [] ∧ Encodable (wideSchema (2 ^ 32)).columns [] ∧
      InMemory (wideSchema (2 ^ 32)).columns [] ∧
      (∀ column ∈ (wideSchema (2 ^ 32)).columns, (asBytes column.name).length ≤ 65535) ∧
      ∀ frame, encodeJsonl "" (wideSchema (2 ^ 32)) ≠ .ok frame := by
  refine ⟨wideSchema_supported (by decide) (le_refl _), rfl, ⟨?_, ?_⟩, ⟨by decide, ?_⟩, ?_,
    encodeJsonl_wide_ne (le_refl _) ""⟩
  · intro row hrow
    cases hrow
  · intro _ _ _
    exact List.IsChain.nil
  · intro column _
    exact Nat.two_pow_pos 62
  · intro column hcolumn
    obtain ⟨i, rfl⟩ := mem_wideSchema hcolumn
    rw [length_bitName]
    decide

/-- Two rows of one column of numbers. -/
theorem encodeJsonl_spec_two_rows :
    ∃ frame, encodeJsonl Reference.idLines (Reference.idSchema .deltaVarintU64) = .ok frame ∧
      decodeJsonl frame (Reference.idSchema .deltaVarintU64) = .ok Reference.idLines ∧
      ∃ inspect, inspectJsonl frame = .ok inspect ∧
        inspect.columns.map (fun column => (column.name, column.codec, column.rowCount)) =
          [("id", .deltaVarintU64, 2)] := by
  obtain ⟨frame, hframe, hfit⟩ := Reference.exists_ok
    (x := encodeJsonl Reference.idLines (Reference.idSchema .deltaVarintU64)) Fits
    (by decide +kernel)
  obtain ⟨hread, -⟩ := @encodeJsonl_spec _ _ (Reference.idSchema .deltaVarintU64) rfl
    Reference.idLines
  obtain ⟨rows, hrows, hdecode, inspect, hinspect, -, hcolumns⟩ := hread frame hfit hframe
  have hparse : parseRows Reference.idLines = .ok Reference.idRows := by rfl
  obtain rfl : Reference.idRows = rows := by
    rw [hparse] at hrows
    cases hrows
    rfl
  refine ⟨frame, hframe, ?_, inspect, hinspect, hcolumns⟩
  rw [hdecode (by decide +kernel)]
  decide +kernel

/-! ### A table of any length -/

/-- A row group of one column holds the payload of that column, behind its name and 27 bytes. -/
theorem encodeJsonlRowGroup_oneColumn [SerdeJson] {input : String} {schema : Schema}
    {column : ColumnSchema} {rows : List Map} {group : JsonlRowGroup}
    (hcolumns : schema.columns = [column]) (hparse : parseRows input = .ok rows)
    (h : encodeJsonlRowGroup input schema = .ok group) :
    group.rowCount = rows.length ∧ group.rawBytes = (asBytes input).length ∧
      ∃ values payload, ColumnValues.Holds column rows values ∧
        values.encode column = .ok payload ∧
          group.payload.length = (asBytes column.name).length + payload.length + 27 := by
  obtain ⟨rows', columnValues, columnCount, blocks, hrows, -, hholds, -, hblocks, rfl⟩ :=
    encodeJsonlRowGroup_ok h
  rw [hparse] at hrows
  cases hrows
  rw [hcolumns] at hholds hblocks
  obtain ⟨values, hvalues, rfl⟩ :
      ∃ values, ColumnValues.Holds column rows values ∧ columnValues = [values] := by
    cases hholds with
    | cons hfirst hrest =>
        cases hrest
        exact ⟨_, hfirst, rfl⟩
  simp only [List.zip_cons_cons, List.zip_nil_right, writeColumnBlocks, writeColumnBlock, bind_ok,
    tryU16_ok, tryU64_ok, pure_ok] at hblocks
  obtain ⟨payload, hencode, _, ⟨nameLen, -, rowCount, -, payloadLen, -, id, -, rfl⟩, _, hnil,
    rfl⟩ := hblocks
  cases hnil
  have hmagic : columnBlockMagic.length = 4 := rfl
  refine ⟨rfl, rfl, values, payload, hvalues, hencode, ?_⟩
  simp only [List.length_append, length_le16, length_le32, length_le64, List.length_singleton,
    List.length_nil, hmagic]
  omega

theorem columnStrings_repeated (codec : SchemaCodec) (n : ℕ) :
    columnStrings ⟨"id", .u64, codec, false⟩ (List.replicate n Reference.idRow) = [] := by
  have hrow : (Reference.idRow.get "id").bind Value.asStr = none := rfl
  exact List.filterMap_eq_nil_iff.2 fun row hmem => List.eq_of_mem_replicate hmem ▸ hrow

theorem columnNumbers_repeated (codec : SchemaCodec) (n : ℕ) :
    columnNumbers ⟨"id", .u64, codec, false⟩ (List.replicate n Reference.idRow) =
      List.replicate n 1 := by
  induction n with
  | zero => rfl
  | succ n ih =>
      rw [List.replicate_succ, List.replicate_succ, ← ih]
      rfl

/-- Equal rows are encodable. -/
theorem encodable_repeated (n : ℕ) : Encodable (Reference.idSchema .deltaVarintU64).columns
    (List.replicate n Reference.idRow) where
  typed row hrow column hcolumn := by
    obtain rfl := List.mem_singleton.1 hcolumn
    obtain rfl := List.eq_of_mem_replicate hrow
    exact ⟨_, rfl, 1, rfl⟩
  sorted column hcolumn _ := by
    obtain rfl := List.mem_singleton.1 hcolumn
    rw [columnNumbers_repeated]
    exact List.isChain_replicate_of_rel n (UInt64.le_refl 1)

/-- Equal rows are encoded at any number, and take at least a byte each. -/
theorem exists_encodeJsonlRowGroup_repeated {n : ℕ} (hn : n < 2 ^ 60) :
    ∃ group, encodeJsonlRowGroup (Reference.repeated n) (Reference.idSchema .deltaVarintU64) =
        .ok group ∧ group.rowCount = n ∧ group.rawBytes = 9 * n ∧ n ≤ group.payload.length ∧
      group.payload.length ≤ 10 * n + 29 := by
  have hparse := Reference.parseRows_repeated n
  have hcols : (Reference.idSchema .deltaVarintU64).supportedColumns =
      .ok (Reference.idSchema .deltaVarintU64).columns := rfl
  have hmem : ∀ rows, parseRows (Reference.repeated n) = .ok rows →
      InMemory (Reference.idSchema .deltaVarintU64).columns rows := by
    intro rows hrows
    rw [hparse] at hrows
    cases hrows
    refine ⟨by rwa [List.length_replicate], fun column hcolumn => ?_⟩
    obtain rfl := List.mem_singleton.1 hcolumn
    rw [columnStrings_repeated]
    exact Nat.two_pow_pos 62
  have hnames : ∀ column ∈ (Reference.idSchema .deltaVarintU64).columns,
      (asBytes column.name).length ≤ 65535 := by
    intro column hcolumn
    obtain rfl := List.mem_singleton.1 hcolumn
    decide
  obtain ⟨group, hgroup⟩ := (exists_encodeJsonlRowGroup hcols hmem).2
    ⟨⟨_, hparse, encodable_repeated n⟩, hnames, by decide⟩
  -- the only column holds the numbers, with one to ten bytes for each
  obtain ⟨hcount, hraw, values, payload, hvalues, hencode, hlength⟩ :=
    encodeJsonlRowGroup_oneColumn rfl hparse hgroup
  refine ⟨group, hgroup, hcount.trans List.length_replicate,
    hraw.trans (Reference.length_asBytes_repeated n), ?_⟩
  have hname : (asBytes "id").length = 2 := rfl
  dsimp only at hlength
  rw [hname] at hlength
  cases values with
  | string values => exact absurd hvalues.1 (by decide)
  | u64 values =>
      have hlen := hvalues.2.length_eq
      rw [List.length_replicate] at hlen
      have hpayload : DeltaVarint.encodeU64 values = .ok payload := hencode
      have hge := DeltaVarint.length_encodeU64_ge hpayload
      have hle := DeltaVarint.length_encodeU64_le hpayload
      omega

end CompactCore.Io
