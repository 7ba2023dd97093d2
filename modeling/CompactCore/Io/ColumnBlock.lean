/-
**JSONL as column blocks.**

JSONL is row-oriented, the codecs work on typed columns.  This module collects the values of each
schema column, encodes the columns one by one, and stores the payloads in a column block inside a
`CMP1` frame.  A decoded column block is rendered again as JSONL, one object to a line.

Main definitions:

* `CompactCore.Io.ColumnValues` — a typed column, with its codec dispatch;
* `CompactCore.Io.encodeJsonlRowGroup` — a row group as a column block;
* `CompactCore.Io.decodeJsonl` — a frame back to JSONL;
* `CompactCore.Io.ColumnValues.Holds` — a typed column holds the values of some rows.

Main results:

* `CompactCore.Io.readColumnBlock_ok` — **parsing a column is exact**;
* `CompactCore.Io.decodeJsonl_encodeJsonlRowGroup` — **decoding an encoded row group renders its
  rows**, restricted to the schema;
* `CompactCore.Io.columnBlock_unique`, `CompactCore.Io.length_le_of_decodeStringValues` — the bytes
  at a place are one column only, and how long run-length encoded strings are that are read back.
-/

import CompactCore.Codecs.Dictionary
import CompactCore.Framing
import CompactCore.Io.Rows

set_option relaxedAutoImplicit false
set_option autoImplicit false

namespace CompactCore

namespace Io

open Wire CompactError

/-! ### Column values -/

/-- A typed column.  The source has this type twice, for values to encode and values decoded. -/
inductive ColumnValues
  | u64 (values : List UInt64)
  | string (values : List String)
  deriving DecidableEq, Repr

def stringTexts : Strings.Texts where
  tooLarge := "string length is too large"
  overflow := "column block length overflow"
  truncated := "string payload is truncated"
  notUtf8 := "string value must be utf-8"

def dictionaryTexts : Strings.Texts where
  tooLarge := "string length is too large"
  overflow := "column block length overflow"
  truncated := "dictionary string is truncated"
  notUtf8 := "string value must be utf-8"

def encodeStringValues (values : List String) : Result (List UInt8) := do
  let raw ← Strings.encodeAll "string value too large" values
  return Rle.encodeRle raw

def newDictionaryId (len : ℕ) : Result UInt64 := tryU64 len "dictionary has too many values"

def encodeDictionaryValues (values : List String) : Result (List UInt8) := do
  let s ← Dictionary.internAll newDictionaryId values
  let entries ← Strings.encodeAll "string value too large" s.dictionary
  return Varint.encodeU64 [UInt64.ofNat s.dictionary.length] ++ entries ++ Varint.encodeU64 s.ids

/-- The loop of `decode_string_values`, until the bytes are used up. -/
def readStringValues (raw : List UInt8) (cursor : ℕ) : Result (List String) :=
  if cursor < raw.length then
    match hread : Strings.readOne stringTexts raw cursor with
    | .error e => .error e
    | .ok (value, cursor') => do
        have := Strings.readOne_cursor_lt hread
        let values ← readStringValues raw cursor'
        return value :: values
  else .ok []
termination_by raw.length - cursor

def decodeStringValues (payload : List UInt8) : Result (List String) := do
  let raw ← Rle.decodeRle payload
  readStringValues raw 0

/-- The head of a dictionary: its length and its strings. -/
def readDictionary : Reader CompactError (List String) := do
  let dictionaryLen ← Varint.readU64
  let dictionaryLen ← tryUsize dictionaryLen "dictionary length is too large"
  Strings.readCount dictionaryTexts dictionaryLen

def decodeDictionaryValues (payload : List UInt8) : Result (List String) := do
  let (dictionary, cursor) ← readDictionary payload 0
  let ids ← Varint.decodeU64 (payload.drop cursor)
  Dictionary.lookupAll "dictionary id is too large" "dictionary id out of range" dictionary ids

namespace ColumnValues

def new (column : ColumnSchema) : Result ColumnValues :=
  match column.valueType, column.codec with
  | .u64, .deltaVarintU64 => .ok (.u64 [])
  | .string, .dictionary | .string, .rle => .ok (.string [])
  | _, _ => .error (unsupported "schema column codec")

def pushJson : ColumnValues → Value → Result ColumnValues
  | .u64 values, value => do
      let value ← okOr (invalidInput "jsonl column must be u64") value.asU64
      return .u64 (values ++ [value])
  | .string values, value => do
      let value ← okOr (invalidInput "jsonl column must be string") value.asStr
      return .string (values ++ [value])

def encode (self : ColumnValues) (column : ColumnSchema) : Result (List UInt8) :=
  match self with
  | .u64 values => Codecs.encodeU64 column.encodeConfig values
  | .string values =>
      match column.codec with
      | .dictionary => encodeDictionaryValues values
      | .rle => encodeStringValues values
      | _ => .error (unsupported "schema column codec")

def decode (column : ColumnSchema) (payload : List UInt8) : Result ColumnValues :=
  match column.valueType, column.codec with
  | .u64, .deltaVarintU64 => do
      let values ← Codecs.decodeU64 column.encodeConfig payload
      return .u64 values
  | .string, .rle => do
      let values ← decodeStringValues payload
      return .string values
  | .string, .dictionary => do
      let values ← decodeDictionaryValues payload
      return .string values
  | _, _ => .error (unsupported "schema column codec")

def len : ColumnValues → ℕ
  | .u64 values => values.length
  | .string values => values.length

def valueAt : ColumnValues → ℕ → Value
  | .u64 values, index => .number (.posInt (values.getD index 0))
  | .string values, index => .string (values.getD index "")

end ColumnValues

/-! ### Encoding a row group -/

/-- `b"CBL1"`. -/
def columnBlockMagic : List UInt8 := [0x43, 0x42, 0x4c, 0x31]

/-- Encoded JSONL row group before it is placed in a streaming v0.2 block. -/
structure JsonlRowGroup where
  rowCount : ℕ
  rawBytes : ℕ
  payload : List UInt8
  deriving DecidableEq, Repr

def codecToId : SchemaCodec → Result UInt8
  | .dictionary => .ok 0x05
  | .deltaVarintU64 => .ok 0x02
  | .rle => .ok 0x01
  | _ => .error (unsupported "v0.2 column codec")

/-- Append the values of one row, column by column. -/
def pushRow (columns : List ColumnSchema) (columnValues : List ColumnValues) (row : Map) :
    Result (List ColumnValues) :=
  (columns.zip columnValues).mapM fun (column, values) => do
    let raw ← okOr (invalidInput "jsonl row missing schema column") (row.get column.name)
    values.pushJson raw

def writeColumnBlock (column : ColumnSchema) (rowCount : ℕ) (payload : List UInt8) :
    Result (List UInt8) := do
  let name := asBytes column.name
  let nameLen ← tryU16 name.length "column name too long"
  let rowCount ← tryU64 rowCount "jsonl row count too large"
  let payloadLen ← tryU64 payload.length "column payload too large"
  let codecId ← codecToId column.codec
  return le16 nameLen ++ (name ++ ([codecId] ++ (le64 rowCount ++ (le64 payloadLen ++ payload))))

/-- The column payloads, in schema order. -/
def writeColumnBlocks (rowCount : ℕ) : List (ColumnSchema × ColumnValues) → Result (List UInt8)
  | [] => .ok []
  | (column, values) :: rest => do
      let payload ← values.encode column
      let block ← writeColumnBlock column rowCount payload
      let blocks ← writeColumnBlocks rowCount rest
      return block ++ blocks

/-- Encode a bounded JSONL row group into the current column-block payload. -/
def encodeJsonlRowGroup [SerdeJson] (input : String) (schema : Schema) : Result JsonlRowGroup := do
  let columns ← schema.supportedColumns
  let columnValues ← columns.mapM ColumnValues.new
  let (columnValues, rowCount) ← ((lines input).filter fun line => !isBlank line).foldlM
    (fun (columnValues, rowCount) line => do
      let row ← parseJsonlObject line
      let columnValues ← pushRow columns columnValues row
      return (columnValues, rowCount + 1))
    (columnValues, 0)
  let columnCount ← tryU32 columns.length "schema has too many columns"
  let blocks ← writeColumnBlocks rowCount (columns.zip columnValues)
  return {
    rowCount := rowCount
    rawBytes := (asBytes input).length
    payload := columnBlockMagic ++ (le32 columnCount ++ blocks) }

/-! ### Decoding a row group -/

structure DecodedColumn where
  name : String
  values : ColumnValues
  deriving DecidableEq, Repr

/-- `read_exact` with this module's overflow text. -/
def readBytes (err : String) : ℕ → Reader CompactError (List UInt8) :=
  readExact (invalidInput "column block length overflow") (invalidInput err)

/-- One column, with the row count it declares. -/
def readColumnBlock (expectedColumn : ColumnSchema) (expectedRowCount : Option ℕ) :
    Reader CompactError (DecodedColumn × ℕ) := do
  let nameLen ← readUInt16 (readBytes "column name length is truncated")
  let nameBytes ← readBytes "column name is truncated" nameLen.toNat
  let name ← okOr (invalidInput "column name must be utf-8") (fromUtf8 nameBytes)
  failIf (name ≠ expectedColumn.name) (invalidInput "column block name does not match schema")
  let codecId ← readUInt8 (readBytes "column codec is truncated")
  let expectedId ← codecToId expectedColumn.codec
  failIf (codecId ≠ expectedId) (invalidInput "column codec does not match schema")
  let rowCount ← readUInt64 (readBytes "column row count is truncated")
  let rowCount ← tryUsize rowCount "column row count is too large"
  let payloadLen ← readUInt64 (readBytes "column payload length is truncated")
  let payloadLen ← tryUsize payloadLen "column payload length is too large"
  let payload ← readBytes "column payload is truncated" payloadLen
  let values ← ColumnValues.decode expectedColumn payload
  failIf (values.len ≠ rowCount)
    (invalidInput "decoded column row count does not match metadata")
  failIf (expectedRowCount.any (· != rowCount) = true)
    (invalidInput "decoded columns have different row counts")
  return (⟨name, values⟩, rowCount)

/-- The columns, each with the row count of the one before it. -/
def readColumnBlocks : List ColumnSchema → Option ℕ → Reader CompactError (List DecodedColumn)
  | [], _ => pure []
  | expectedColumn :: schemaColumns, expectedRowCount => do
      let (column, rowCount) ← readColumnBlock expectedColumn expectedRowCount
      let columns ← readColumnBlocks schemaColumns (some rowCount)
      return column :: columns

/-- The column block up to its end. -/
def readBlock (schemaColumns : List ColumnSchema) : Reader CompactError (List DecodedColumn) := do
  let magic ← readBytes "column block header is truncated" 4
  failIf (magic ≠ columnBlockMagic) (invalidInput "invalid column block magic")
  let columnCount ← readUInt32 (readBytes "column block count is truncated")
  failIf (columnCount.toNat ≠ schemaColumns.length)
    (invalidInput "column block count does not match schema")
  readColumnBlocks schemaColumns none

def decodeColumnBlocks (data : List UInt8) (schemaColumns : List ColumnSchema) :
    Result (List DecodedColumn) := do
  let (decoded, cursor) ← readBlock schemaColumns data 0
  failIf (cursor ≠ data.length) (invalidInput "column block has trailing bytes")
  return decoded

def renderJsonObject [SerdeJson] (columns : List DecodedColumn) (rowIndex : ℕ) : String :=
  renderObject (columns.map fun column => (column.name, column.values.valueAt rowIndex))

/-- Decode a column-block JSONL frame back into compact one-object-per-line JSONL. -/
def decodeJsonl [Crc32Fast] [SerdeJson] (frame : List UInt8) (schema : Schema) :
    Result String := do
  let columns ← schema.supportedColumns
  let outer ← Framing.decodeV1 frame
  failIf (outer.codec ≠ .columnBlock) (invalidInput "frame codec does not match jsonl schema")
  let decodedColumns ← decodeColumnBlocks outer.payload columns
  let rowCount := (decodedColumns.head?.map fun column => column.values.len).getD 0
  return (List.range rowCount).foldl
    (fun out rowIndex => out ++ renderJsonObject decodedColumns rowIndex ++ "\n") ""

/-! ### Column codecs -/

/-- Reading strings until the bytes are used up is exact. -/
theorem readStringValues_ok {raw : List UInt8} (hfit : Fits raw) {values : List String}
    {cursor : ℕ} (hcursor : cursor ≤ raw.length) :
    readStringValues raw cursor = .ok values ↔
      raw.drop cursor = values.flatMap Strings.lenPrefixed := by
  -- induction on the number of bytes that are left
  induction hlen : raw.length - cursor using Nat.strong_induction_on generalizing cursor values with
  | _ n ih =>
      rw [readStringValues]
      by_cases hlt : cursor < raw.length
      · rw [if_pos hlt]
        have hread : ∀ value cursor',
            Strings.readOne stringTexts raw cursor = .ok (value, cursor') ↔
            At raw cursor (Strings.lenPrefixed value) ∧
              cursor' = cursor + (Strings.lenPrefixed value).length :=
          fun value cursor' => Strings.readOne_ok hfit
        constructor
        · intro h
          split at h
          · cases h
          · rename_i value cursor' hval
            simp only [bind_ok, pure_ok] at h
            obtain ⟨rest, hrest, rfl⟩ := h
            obtain ⟨hat, rfl⟩ := (hread value cursor').1 hval
            have hpos := Strings.length_lenPrefixed_pos value
            have hle := hat.le
            have hdrop := (ih _ (by omega) hle rfl).1 hrest
            rw [List.flatMap_cons, ← hdrop]
            exact hat.eq_drop
        · intro h
          cases values with
          | nil =>
              have hz := congrArg List.length h
              rw [List.length_drop] at hz
              simp at hz
              omega
          | cons value rest =>
              rw [List.flatMap_cons] at h
              have hat : At raw cursor (Strings.lenPrefixed value) :=
                at_iff_drop.2 ⟨hcursor, h ▸ List.prefix_append ..⟩
              have hval := (hread value _).2 ⟨hat, rfl⟩
              have hpos := Strings.length_lenPrefixed_pos value
              have hle := hat.le
              have hrest : raw.drop (cursor + (Strings.lenPrefixed value).length) =
                  rest.flatMap Strings.lenPrefixed := by
                rw [hat.eq_drop] at h
                exact List.append_cancel_left h
              have hok := (ih _ (by omega) hle rfl).2 hrest
              split
              · rename_i e he
                rw [hval] at he
                cases he
              · rename_i value' cursor' he
                rw [hval] at he
                cases he
                simp only [bind_ok, pure_ok]
                exact ⟨rest, hok, rfl⟩
      · rw [if_neg hlt, List.drop_eq_nil_of_le (by omega)]
        cases values with
        | nil => simp
        | cons value rest =>
            have hpos := Strings.length_lenPrefixed_pos value
            rw [List.flatMap_cons]
            constructor
            · intro h
              cases h
            · intro h
              have hz := congrArg List.length h
              rw [List.length_append, List.length_nil] at hz
              omega

/-- Run-length encoded strings are read back when their stored form stays within the limit. -/
theorem decodeStringValues_encode {values : List String} {payload : List UInt8}
    (h : encodeStringValues values = .ok payload)
    (hmax : (values.flatMap Strings.lenPrefixed).length ≤ maxDecodedBytes) :
    decodeStringValues payload = .ok values := by
  simp only [encodeStringValues, bind_ok, Strings.encodeAll_ok, pure_ok] at h
  obtain ⟨raw, ⟨-, rfl⟩, rfl⟩ := h
  have hfit : Fits (values.flatMap Strings.lenPrefixed) :=
    lt_of_le_of_lt hmax (by norm_num [maxDecodedBytes, wordSize])
  simp only [decodeStringValues, bind_ok]
  exact ⟨_, Rle.decodeRleBounded_encodeRle hmax hfit,
    (readStringValues_ok hfit (Nat.zero_le _)).2 rfl⟩

/-- Dictionary-encoded strings are read back. -/
theorem decodeDictionaryValues_encode {values : List String} {payload : List UInt8}
    (h : encodeDictionaryValues values = .ok payload) (hfit : Fits payload) :
    decodeDictionaryValues payload = .ok values := by
  simp only [encodeDictionaryValues, bind_ok, Strings.encodeAll_ok, pure_ok] at h
  obtain ⟨s, hs, entries, ⟨-, rfl⟩, rfl⟩ := h
  obtain ⟨hn, k, k', hhead, hentries, hids⟩ :=
    Dictionary.payload_read dictionaryTexts
      (show Fits (Dictionary.payload s.dictionary s.ids) from hfit)
  have hlookup : Dictionary.lookupAll "dictionary id is too large" "dictionary id out of range"
      s.dictionary s.ids = .ok values := by
    refine Dictionary.lookupAll_internAll (fun n id hid => ?_) hs _ _
    rwa [newDictionaryId, tryU64_ok] at hid
  show decodeDictionaryValues (Dictionary.payload s.dictionary s.ids) = .ok values
  simp only [decodeDictionaryValues, bind_ok, Prod.exists, readDictionary, Reader.bind_ok,
    Reader.lift_ok, tryUsize_eq, Except.ok.injEq, Varint.decodeU64_ok]
  exact ⟨s.dictionary, k', ⟨_, k, hhead, _, k, ⟨hn, rfl⟩, hentries⟩, s.ids, hids, hlookup⟩

/-! ### Rows in columns -/

/-- `values.Holds column rows`: the typed column holds the values that the rows have under the
name of the column. -/
def ColumnValues.Holds (column : ColumnSchema) (rows : List Map) : ColumnValues → Prop
  | .u64 values => column.valueType = .u64 ∧
      List.Forall₂ (fun row value => row.get column.name = some (.number (.posInt value)))
        rows values
  | .string values => column.valueType = .string ∧
      List.Forall₂ (fun row value => row.get column.name = some (.string value)) rows values

theorem ColumnValues.Holds.new {column : ColumnSchema} {values : ColumnValues}
    (h : ColumnValues.new column = .ok values) : values.Holds column [] := by
  unfold ColumnValues.new at h
  split at h <;> cases h
  · exact ⟨‹_›, List.Forall₂.nil⟩
  · exact ⟨‹_›, List.Forall₂.nil⟩
  · exact ⟨‹_›, List.Forall₂.nil⟩

theorem ColumnValues.Holds.pushJson {column : ColumnSchema} {rows : List Map}
    {values values' : ColumnValues} (h : values.Holds column rows) {row : Map} {raw : Value}
    (hraw : row.get column.name = some raw) (hpush : values.pushJson raw = .ok values') :
    values'.Holds column (rows ++ [row]) := by
  cases values with
  | u64 vs =>
      simp only [ColumnValues.pushJson, bind_ok, okOr_ok, Value.asU64_eq_some, pure_ok] at hpush
      obtain ⟨v, rfl, rfl⟩ := hpush
      exact ⟨h.1, List.rel_append h.2 (List.Forall₂.cons hraw List.Forall₂.nil)⟩
  | string vs =>
      simp only [ColumnValues.pushJson, bind_ok, okOr_ok, Value.asStr_eq_some, pure_ok] at hpush
      obtain ⟨v, rfl, rfl⟩ := hpush
      exact ⟨h.1, List.rel_append h.2 (List.Forall₂.cons hraw List.Forall₂.nil)⟩

/-- **Pushing a row** extends every column by the row's value. -/
theorem holds_pushRow {columns : List ColumnSchema} {rows : List Map} {row : Map}
    {columnValues columnValues' : List ColumnValues}
    (h : List.Forall₂ (fun column values => ColumnValues.Holds column rows values) columns
      columnValues)
    (hpush : pushRow columns columnValues row = .ok columnValues') :
    List.Forall₂ (fun column values => ColumnValues.Holds column (rows ++ [row]) values) columns
      columnValues' := by
  induction h generalizing columnValues' with
  | nil =>
      obtain rfl : [] = columnValues' := by simpa [pushRow] using hpush
      exact List.Forall₂.nil
  | cons hcol _ ih =>
      simp only [pushRow, List.zip_cons_cons, List.mapM_cons, bind_ok, okOr_ok, pure_ok] at hpush
      obtain ⟨values', ⟨raw, hraw, hvalues⟩, rest, hrest, rfl⟩ := hpush
      exact List.Forall₂.cons (hcol.pushJson hraw hvalues) (ih hrest)

theorem ColumnValues.Holds.len_eq {column : ColumnSchema} {rows : List Map}
    {values : ColumnValues} (h : values.Holds column rows) : values.len = rows.length := by
  cases values with
  | u64 vs => exact h.2.length_eq.symm
  | string vs => exact h.2.length_eq.symm

theorem ColumnValues.Holds.valueAt {column : ColumnSchema} {rows : List Map}
    {values : ColumnValues} (h : values.Holds column rows) {i : ℕ} (hi : i < rows.length) :
    rows[i].get column.name = some (values.valueAt i) := by
  cases values with
  | u64 vs =>
      have hv : i < vs.length := h.2.length_eq ▸ hi
      rw [ColumnValues.valueAt, List.getD_eq_getElem _ _ hv]
      exact (List.forall₂_iff_get.1 h.2).2 i hi hv
  | string vs =>
      have hv : i < vs.length := h.2.length_eq ▸ hi
      rw [ColumnValues.valueAt, List.getD_eq_getElem _ _ hv]
      exact (List.forall₂_iff_get.1 h.2).2 i hi hv

theorem columnStrings_eq {column : ColumnSchema} {rows : List Map} {values : List String}
    (h : List.Forall₂ (fun row value => row.get column.name = some (.string value)) rows values) :
    columnStrings column rows = values := by
  induction h with
  | nil => rfl
  | cons hrow _ ih =>
      rw [columnStrings, List.filterMap_cons, hrow]
      exact congrArg _ ih

/-- **A column is read back** when it stays within the run-length decoder's limit. -/
theorem ColumnValues.Holds.decode_encode {column : ColumnSchema} {rows : List Map}
    {values : ColumnValues} (h : values.Holds column rows) (hsup : column.supported = true)
    {payload : List UInt8} (henc : values.encode column = .ok payload) (hfit : Fits payload)
    (hrle : column.codec = .rle →
      ((columnStrings column rows).flatMap Strings.lenPrefixed).length ≤ maxDecodedBytes) :
    ColumnValues.decode column payload = .ok values := by
  cases values with
  | u64 vs =>
      have hcodec : column.codec = .deltaVarintU64 := by
        unfold ColumnSchema.supported at hsup
        split at hsup <;> simp_all [ColumnValues.Holds]
      simp only [ColumnValues.decode, h.1, hcodec, bind_ok, pure_ok, Codecs.decodeU64_ok]
      exact ⟨vs, henc, rfl⟩
  | string vs =>
      have hcodec : column.codec = .dictionary ∨ column.codec = .rle := by
        unfold ColumnSchema.supported at hsup
        split at hsup <;> simp_all [ColumnValues.Holds]
      rcases hcodec with hcodec | hcodec
      · simp only [ColumnValues.encode, hcodec] at henc
        simp only [ColumnValues.decode, h.1, hcodec, bind_ok, pure_ok]
        exact ⟨vs, decodeDictionaryValues_encode henc hfit, rfl⟩
      · have hmax := hrle hcodec
        rw [columnStrings_eq h.2] at hmax
        simp only [ColumnValues.encode, hcodec] at henc
        simp only [ColumnValues.decode, h.1, hcodec, bind_ok, pure_ok]
        exact ⟨vs, decodeStringValues_encode henc hmax, rfl⟩

/-! ### Parsing is exact -/

/-- **Parsing one column is exact**: it succeeds precisely on what the writer writes for a payload
that decodes. -/
theorem readColumnBlock_ok {column : ColumnSchema} {expected : Option ℕ} {data : List UInt8}
    {c c' n : ℕ} {decoded : DecodedColumn} (hfit : Fits data) :
    readColumnBlock column expected data c = .ok ((decoded, n), c') ↔
      decoded.name = column.name ∧ decoded.values.len = n ∧ (∀ e ∈ expected, e = n) ∧
        ∃ payload block, ColumnValues.decode column payload = .ok decoded.values ∧
          writeColumnBlock column n payload = .ok block ∧ At data c block ∧
            c' = c + block.length := by
  have hexp : (¬expected.any (· != n) = true) ↔ ∀ e ∈ expected, e = n := by
    cases expected <;> simp
  simp only [readColumnBlock, readBytes, Reader.bind_ok, readUInt16_ok hfit, readUInt8_ok hfit,
    readUInt64_ok hfit, readExact_ok hfit, Reader.lift_ok, okOr_ok, fromUtf8_eq_some, failIf_ok,
    not_not, tryUsize_eq, Except.ok.injEq, Reader.pure_ok, Prod.mk.injEq, writeColumnBlock,
    bind_ok, tryU16_ok, tryU64_ok, pure_ok, and_assoc, exists_and_left, exists_eq_left,
    exists_eq_left', exists_const]
  constructor
  · intro h
    obtain ⟨nameLen, hat₁, _, hat₂, hlen₂, name, rfl, hname, id, hat₃, _, hid, rfl, rowCount, hat₄,
      payloadLen, hat₅, payload, hat₆, hlen₆, values, hvalues, hlen, hexpected, rfl, rfl, hc⟩ := h
    refine ⟨hname, hlen, hexp.1 hexpected, payload, hvalues, _,
      ⟨nameLen, by rw [← hlen₂, hname], rowCount, rfl, payloadLen, hlen₆.symm, id, hid, rfl⟩,
      ?_, ?_⟩
    · rw [at_append, at_append, at_append, at_append, at_append, length_le16, length_le64,
        List.length_singleton, ← hname, hlen₂]
      exact ⟨hat₁, hat₂, hat₃, hat₄, hat₅, hat₆⟩
    · simp only [List.length_append, length_le16, length_le64, List.length_singleton, hlen₆,
        ← hname, hlen₂]
      omega
  · intro h
    obtain ⟨hname, hlen, hexpected, payload, hvalues, _,
      ⟨nameLen, hn, rowCount, hr, payloadLen, hp, id, hid, rfl⟩, hat, hc⟩ := h
    rw [at_append, at_append, at_append, at_append, at_append, length_le16, length_le64,
      List.length_singleton, ← hn] at hat
    obtain ⟨hat₁, hat₂, hat₃, hat₄, hat₅, hat₆⟩ := hat
    rw [← hr] at hlen
    refine ⟨nameLen, hat₁, _, hat₂, hn.symm, _, rfl, rfl, id, hat₃, id, hid, rfl, rowCount, hat₄,
      payloadLen, hat₅, payload, hat₆, hp.symm, _, hvalues, hlen, ?_, ?_, hr, ?_⟩
    · rw [hr]
      exact hexp.2 hexpected
    · rw [← hname]
    · rw [hc]
      simp only [List.length_append, length_le16, length_le64, List.length_singleton, ← hn, ← hp]
      omega

/-- What the writer writes for columns that decode is parsed column by column. -/
theorem readColumnBlocks_write {n : ℕ} {columns : List ColumnSchema}
    {columnValues : List ColumnValues} {expected : Option ℕ} {data blocks : List UInt8} {c : ℕ}
    (hfit : Fits data) (hwrite : writeColumnBlocks n (columns.zip columnValues) = .ok blocks)
    (hdecode : List.Forall₂ (fun (column : ColumnSchema) (values : ColumnValues) =>
      values.len = n ∧ ∀ payload, Fits payload → values.encode column = .ok payload →
        ColumnValues.decode column payload = .ok values) columns columnValues)
    (hat : At data c blocks) (hexp : ∀ e ∈ expected, e = n) :
    readColumnBlocks columns expected data c =
      .ok (List.zipWith (fun column values => ⟨column.name, values⟩) columns columnValues,
        c + blocks.length) := by
  induction hdecode generalizing expected blocks c with
  | nil =>
      obtain rfl : [] = blocks := by simpa [writeColumnBlocks] using hwrite
      rfl
  | cons hcol _ ih =>
      simp only [List.zip_cons_cons, writeColumnBlocks, bind_ok, pure_ok] at hwrite
      obtain ⟨payload, henc, block, hblock, rest, hrest, rfl⟩ := hwrite
      rw [at_append] at hat
      have hpayload : Fits payload := by
        simp only [writeColumnBlock, bind_ok, pure_ok] at hblock
        obtain ⟨_, -, _, -, _, -, _, -, rfl⟩ := hblock
        have hle := hat.1.le
        simp only [List.length_append] at hle
        exact lt_of_le_of_lt (by omega) hfit
      simp only [readColumnBlocks, Reader.bind_ok, Prod.exists, readColumnBlock_ok hfit,
        Reader.pure_ok]
      refine ⟨⟨_, _⟩, n, _, ⟨rfl, hcol.1, hexp, payload, block, hcol.2 payload hpayload henc,
        hblock, hat.1, rfl⟩, _, _, ih hrest hat.2 ?_, rfl, ?_⟩
      · intro e he
        cases he
        rfl
      · rw [List.length_append, Nat.add_assoc]

/-! ### Round trip -/

/-- `RleWithinLimit columns rows`: in every run-length encoded column, the stored strings of the
rows are not longer than what the run-length decoder will materialize. -/
def RleWithinLimit (columns : List ColumnSchema) (rows : List Map) : Prop :=
  ∀ column ∈ columns, column.codec = .rle →
    ((columnStrings column rows).flatMap Strings.lenPrefixed).length ≤ maxDecodedBytes

instance (columns : List ColumnSchema) (rows : List Map) :
    Decidable (RleWithinLimit columns rows) :=
  inferInstanceAs (Decidable (∀ column ∈ columns, _ → _))

/-- **What the encoder collects**: the rows of the text, held column by column. -/
theorem encodeJsonlRowGroup_ok [SerdeJson] {input : String} {schema : Schema}
    {group : JsonlRowGroup} (h : encodeJsonlRowGroup input schema = .ok group) :
    ∃ rows columnValues columnCount blocks, parseRows input = .ok rows ∧
      schema.supportedColumns = .ok schema.columns ∧
      List.Forall₂ (fun column values => ColumnValues.Holds column rows values) schema.columns
        columnValues ∧
      columnCount.toNat = schema.columns.length ∧
      writeColumnBlocks rows.length (schema.columns.zip columnValues) = .ok blocks ∧
      group = ⟨rows.length, (asBytes input).length,
        columnBlockMagic ++ (le32 columnCount ++ blocks)⟩ := by
  simp only [encodeJsonlRowGroup, bind_ok, Prod.exists, tryU32_ok, pure_ok] at h
  obtain ⟨columns, hcols, initial, hnew, columnValues, rowCount, hfold, columnCount, hcount, blocks,
    hblocks, rfl⟩ := h
  obtain ⟨rfl, -⟩ := Schema.supportedColumns_ok.1 hcols
  -- after every line, the columns hold the rows parsed so far
  have hinv := foldlM_invariant
    (P := fun (done : List String) (state : List ColumnValues × ℕ) => ∃ rows : List Map,
      done.mapM parseJsonlObject = .ok rows ∧ state.2 = rows.length ∧
        List.Forall₂ (fun column values => ColumnValues.Holds column rows values) schema.columns
          state.1) ?_ ⟨[], rfl, rfl, ?_⟩ hfold
  · obtain ⟨rows, hrows, rfl, hholds⟩ := hinv
    exact ⟨rows, columnValues, columnCount, blocks, hrows, hcols, hholds, hcount, hblocks, rfl⟩
  · intro done line state state' hstate hstep
    obtain ⟨values, count⟩ := state
    obtain ⟨rows, hrows, hlen, hholds⟩ := hstate
    simp only [bind_ok, pure_ok] at hstep
    obtain ⟨row, hrow, values', hpush, rfl⟩ := hstep
    refine ⟨rows ++ [row], ?_, ?_, holds_pushRow hholds hpush⟩
    · simp only [List.mapM_append, bind_ok, List.mapM_cons, List.mapM_nil, pure_ok]
      exact ⟨rows, hrows, [row], ⟨row, hrow, [], rfl, rfl⟩, rfl⟩
    · rw [List.length_append, ← hlen]
      rfl
  · rw [mapM_ok] at hnew
    exact hnew.imp fun _ _ => ColumnValues.Holds.new

theorem renderJsonObject_eq [SerdeJson] {columns : List ColumnSchema} {rows : List Map}
    {columnValues : List ColumnValues}
    (h : List.Forall₂ (fun column values => ColumnValues.Holds column rows values) columns
      columnValues) {i : ℕ} (hi : i < rows.length) :
    renderJsonObject (List.zipWith (fun column values => ⟨column.name, values⟩) columns
      columnValues) i = renderRow columns rows[i] := by
  rw [renderJsonObject, renderRow]
  congr 1
  induction h with
  | nil => rfl
  | cons hcol _ ih =>
      rw [List.zipWith_cons_cons, List.map_cons, List.map_cons, ih, valueOf, hcol.valueAt hi]
      rfl

/-- The row count that the decoder takes from the first column. -/
theorem head_len {columns : List ColumnSchema} {rows : List Map} {columnValues : List ColumnValues}
    (h : List.Forall₂ (fun column values => ColumnValues.Holds column rows values) columns
      columnValues) (hne : columns ≠ []) :
    ((List.zipWith (fun column values => DecodedColumn.mk column.name values) columns
      columnValues).head?.map fun column => column.values.len).getD 0 = rows.length := by
  cases h with
  | nil => exact absurd rfl hne
  | cons hcol _ => exact hcol.len_eq

/-- **Decoding an encoded row group renders its rows**, restricted to the columns of the schema. -/
theorem decodeJsonl_encodeJsonlRowGroup [Crc32Fast] [SerdeJson] {input : String} {schema : Schema}
    {group : JsonlRowGroup} {rows : List Map} (h : encodeJsonlRowGroup input schema = .ok group)
    (hrows : parseRows input = .ok rows)
    (hfit : Fits (Framing.encodeV1 .columnBlock group.payload))
    (hrle : RleWithinLimit schema.columns rows) :
    decodeJsonl (Framing.encodeV1 .columnBlock group.payload) schema =
      .ok (renderRows schema.columns rows) := by
  obtain ⟨rows', columnValues, columnCount, blocks, hrows', hcols, hholds, hcount, hblocks, rfl⟩ :=
    encodeJsonlRowGroup_ok h
  rw [hrows, Except.ok.injEq] at hrows'
  subst hrows'
  obtain ⟨-, hne, -, -, hsup⟩ := Schema.supportedColumns_ok.1 hcols
  have hframe : Framing.decodeV1 (Framing.encodeV1 .columnBlock
      (columnBlockMagic ++ (le32 columnCount ++ blocks))) = .ok ⟨.columnBlock, _⟩ :=
    (Framing.decodeV1_ok hfit).2 rfl
  have hfit' : Fits (columnBlockMagic ++ (le32 columnCount ++ blocks)) :=
    Framing.fits_payload hfit
  have hdecode : List.Forall₂ (fun (column : ColumnSchema) (values : ColumnValues) =>
      values.len = rows.length ∧ ∀ payload, Fits payload → values.encode column = .ok payload →
        ColumnValues.decode column payload = .ok values) schema.columns columnValues := by
    refine List.forall₂_iff_get.2 ⟨hholds.length_eq, fun i hi hv => ?_⟩
    have hcol := (List.forall₂_iff_get.1 hholds).2 i hi hv
    exact ⟨hcol.len_eq, fun payload hpayload henc => hcol.decode_encode
      (hsup _ (List.get_mem ..)) henc hpayload (hrle _ (List.get_mem ..))⟩
  have hat := at_self (columnBlockMagic ++ (le32 columnCount ++ blocks))
  have hnone : ∀ e ∈ (none : Option ℕ), e = rows.length := fun e he => by cases he
  have hblock := readColumnBlocks_write (c := 8) hfit' hblocks hdecode
    (at_append.1 (at_append.1 hat).2).2 hnone
  have hparse : decodeColumnBlocks (columnBlockMagic ++ (le32 columnCount ++ blocks))
      schema.columns = .ok (List.zipWith (fun column values => ⟨column.name, values⟩)
        schema.columns columnValues) := by
    simp only [decodeColumnBlocks, bind_ok, Prod.exists, readBlock, readBytes, Reader.bind_ok,
      readExact_ok hfit', readUInt32_ok hfit', Reader.lift_ok, failIf_ok, not_not, pure_ok]
    refine ⟨_, _, ⟨_, _, ⟨(at_append.1 hat).1, rfl, rfl⟩, (), _, ⟨rfl, rfl⟩, columnCount, _,
      ⟨(at_append.1 (at_append.1 hat).2).1, rfl⟩, (), _, ⟨hcount, rfl⟩, hblock⟩, (), ?_, rfl⟩
    rw [List.length_append, List.length_append, length_le32, columnBlockMagic]
    simp only [List.length_cons, List.length_nil]
    omega
  simp only [decodeJsonl, bind_ok, failIf_ok, pure_ok]
  refine ⟨schema.columns, hcols, _, hframe, (), by simp, _, hparse, ?_⟩
  rw [head_len hholds hne]
  exact foldl_render fun i hi => renderJsonObject_eq hholds hi

/-! ### What is read back only within the limit -/

/-- Run-length encoded strings are read back only when their stored form stays within the limit. -/
theorem length_le_of_decodeStringValues {values values' : List String} {payload : List UInt8}
    (h : encodeStringValues values = .ok payload)
    (hdecode : decodeStringValues payload = .ok values') :
    (values.flatMap Strings.lenPrefixed).length ≤ maxDecodedBytes := by
  simp only [encodeStringValues, bind_ok, Strings.encodeAll_ok, pure_ok] at h
  obtain ⟨raw, ⟨-, rfl⟩, rfl⟩ := h
  simp only [decodeStringValues, bind_ok] at hdecode
  obtain ⟨raw, hraw, -⟩ := hdecode
  have hbounded : Rle.decodeRleBounded (Rle.encodeRle (values.flatMap Strings.lenPrefixed))
      maxDecodedBytes = .ok raw := hraw
  have hlen := Rle.decodeRleBounded_length_le hbounded
  simp only [Rle.decodeRleBounded, bind_ok, pure_ok] at hbounded
  obtain ⟨_, -, _, -, rfl⟩ := hbounded
  rwa [Rle.expand_encodeRle] at hlen

/-- The bytes at a place are the block of a column for one payload only. -/
theorem columnBlock_unique {column : ColumnSchema} {n n' c : ℕ}
    {data payload payload' block block' : List UInt8}
    (h : writeColumnBlock column n payload = .ok block)
    (h' : writeColumnBlock column n' payload' = .ok block') (hat : At data c block)
    (hat' : At data c block') : payload = payload' ∧ block.length = block'.length := by
  simp only [writeColumnBlock, bind_ok, tryU16_ok, tryU64_ok, pure_ok] at h h'
  obtain ⟨nameLen, hname, rowCount, -, payloadLen, hlen, id, -, rfl⟩ := h
  obtain ⟨nameLen', hname', rowCount', -, payloadLen', hlen', id', -, rfl⟩ := h'
  simp only [at_append, length_le16, length_le64, List.length_singleton] at hat hat'
  obtain ⟨-, -, -, -, hat₅, hat₆⟩ := hat
  obtain ⟨-, -, -, -, hat₅', hat₆'⟩ := hat'
  have hpayload : payload = payload' := by
    refine hat₆.eq_of_length hat₆' ?_
    rw [← hlen, ← hlen', le64_unique hat₅ hat₅']
  refine ⟨hpayload, ?_⟩
  simp only [List.length_append, length_le16, length_le64, List.length_singleton, hpayload]

/-- Columns are read back only within the limit. -/
theorem rleWithinLimit_of_read {n : ℕ} {columns : List ColumnSchema} {rows : List Map}
    {columnValues : List ColumnValues} {expected : Option ℕ} {data blocks : List UInt8} {c : ℕ}
    {decoded : List DecodedColumn} {c' : ℕ} (hfit : Fits data)
    (hwrite : writeColumnBlocks n (columns.zip columnValues) = .ok blocks)
    (hholds : List.Forall₂ (fun column values => ColumnValues.Holds column rows values) columns
      columnValues) (hat : At data c blocks)
    (hread : readColumnBlocks columns expected data c = .ok (decoded, c')) :
    RleWithinLimit columns rows := by
  induction hholds generalizing expected blocks c decoded c' with
  | nil => exact List.forall_mem_nil _
  | @cons column values columns columnValues hcol _ ih =>
      simp only [List.zip_cons_cons, writeColumnBlocks, bind_ok, pure_ok] at hwrite
      obtain ⟨payload, hencode, block, hblock, rest, hrest, rfl⟩ := hwrite
      rw [at_append] at hat
      simp only [readColumnBlocks, Reader.bind_ok, Prod.exists, readColumnBlock_ok hfit,
        Reader.pure_ok] at hread
      obtain ⟨first, k, c₁, ⟨-, -, -, payload', block', hdecode, hblock', hat', rfl⟩, others, c₂,
        hothers, -⟩ := hread
      obtain ⟨rfl, hlen⟩ := columnBlock_unique hblock hblock' hat.1 hat'
      rw [← hlen] at hothers
      refine List.forall_mem_cons.2 ⟨fun hcodec => ?_, ih hrest hat.2 hothers⟩
      cases values with
      | u64 values =>
          simp only [ColumnValues.decode, hcol.1, hcodec, reduceCtorEq] at hdecode
      | string values =>
          rw [columnStrings_eq hcol.2]
          simp only [ColumnValues.encode, hcodec] at hencode
          simp only [ColumnValues.decode, hcol.1, hcodec, bind_ok, pure_ok] at hdecode
          obtain ⟨values', hdecode, -⟩ := hdecode
          exact length_le_of_decodeStringValues hencode hdecode

/-- **A row group is decoded only within the limit** of the run-length decoder. -/
theorem rleWithinLimit_of_decodeJsonl [Crc32Fast] [SerdeJson] {input text : String}
    {schema : Schema} {group : JsonlRowGroup} {rows : List Map}
    (h : encodeJsonlRowGroup input schema = .ok group) (hrows : parseRows input = .ok rows)
    (hfit : Fits (Framing.encodeV1 .columnBlock group.payload))
    (hdecode : decodeJsonl (Framing.encodeV1 .columnBlock group.payload) schema = .ok text) :
    RleWithinLimit schema.columns rows := by
  obtain ⟨rows', columnValues, columnCount, blocks, hrows', hcols, hholds, hcount, hblocks, rfl⟩ :=
    encodeJsonlRowGroup_ok h
  rw [hrows, Except.ok.injEq] at hrows'
  subst hrows'
  have hframe : Framing.decodeV1 _ = .ok ⟨.columnBlock, _⟩ := (Framing.decodeV1_ok hfit).2 rfl
  have hfit' : Fits (columnBlockMagic ++ (le32 columnCount ++ blocks)) :=
    Framing.fits_payload hfit
  have hat := at_self (columnBlockMagic ++ (le32 columnCount ++ blocks))
  simp only [decodeJsonl, bind_ok, hcols, hframe, Except.ok.injEq, exists_eq_left',
    decodeColumnBlocks, Prod.exists, readBlock, readBytes, Reader.bind_ok, readExact_ok hfit',
    readUInt32_ok hfit', Reader.lift_ok, pure_ok] at hdecode
  obtain ⟨_, -, _,
    ⟨decoded, c', ⟨magic, _, ⟨-, hmagic, rfl⟩, _, _, ⟨-, rfl⟩, count, _, ⟨-, rfl⟩, _, _,
    ⟨-, rfl⟩, hread⟩, -⟩, -⟩ := hdecode
  have hcolumns := (at_append.1 (at_append.1 hat).2).2
  exact rleWithinLimit_of_read hfit' hblocks hholds hcolumns hread

end Io

end CompactCore
