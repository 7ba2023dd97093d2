/-
**`CMP3` boolean columns.**

A boolean payload is one or two bitmaps: the validity of a nullable column, and the values that are
not null.  The codec metadata is the number of values.

Main definitions:

* `CompactCore.Codecs.V3.encodeBooleanColumn`, `CompactCore.Codecs.V3.decodeBooleanColumn` — the
  two directions.

Main results:

* `CompactCore.Codecs.V3.decodeBooleanColumn_encode` — **an encoded column decodes to the cells of
  its rows**;
* `CompactCore.Codecs.V3.decodeBooleanColumn_counts` — a decoded column has the counts of its
  metadata.
-/

import CompactCore.Codecs.V3.Nullable
import CompactCore.Statistics

set_option relaxedAutoImplicit false
set_option autoImplicit false

namespace CompactCore.Codecs.V3

open Wire CompactError Format.V3
open Io (valueOf)

namespace BooleanColumn

def texts : CellTexts where
  mustNotBeNull := "required boolean column must not be null"
  missing := "jsonl row missing required boolean column"
  wrongType := "jsonl boolean column must be bool or null"

/-- The boolean of a `Value::Bool`. -/
def asBool : Value → Option Bool
  | .bool value => some value
  | _ => none

def validateBooleanColumn (column : ColumnSchema) : Result Unit :=
  failIf (column.valueType ≠ .bool ∨ column.codec ≠ .bitmap)
    (unsupported "cmp3 boolean encoder requires bool bitmap column")

def validateBooleanMetadata (metadata : ColumnChunkMetadata) (payload : List UInt8) :
    Result Unit := do
  failIf (metadata.valueType ≠ .bool ∨ metadata.codec ≠ .bitmap)
    (invalidInput "cmp3 boolean metadata has incompatible type or codec")
  failIf (metadata.valueCount < metadata.nullCount)
    (invalidInput "cmp3 null count exceeds value count")
  failIf (metadata.nullable = false ∧ metadata.nullCount ≠ 0)
    (invalidInput "cmp3 required column has null values")
  failIf (metadata.codecMetadata.length ≠ 8)
    (invalidInput "cmp3 boolean codec metadata must contain non-null count")
  let declaredNonNullCount := u64OfLe metadata.codecMetadata
  let expectedNonNullCount := metadata.valueCount - metadata.nullCount
  failIf (declaredNonNullCount ≠ expectedNonNullCount)
    (invalidInput "cmp3 boolean codec metadata count mismatch")
  let payloadLen ← tryU64 payload.length "cmp3 boolean payload is too large"
  failIf (metadata.compressedSize ≠ payloadLen)
    (invalidInput "cmp3 boolean payload size does not match metadata")
  let valueCount ← tryUsize metadata.valueCount "cmp3 boolean value count is too large"
  let nonNullCount ← tryUsize expectedNonNullCount "cmp3 boolean value count is too large"
  let expectedPayloadLen ← okOr (invalidInput "cmp3 boolean payload length overflow")
    (usizeAdd (if metadata.nullable then (valueCount + 7) / 8 else 0) ((nonNullCount + 7) / 8))
  failIf (payload.length ≠ expectedPayloadLen)
    (invalidInput "cmp3 boolean payload length does not match counts")

end BooleanColumn

open BooleanColumn in
/-- Encode a schema-defined boolean column from JSON object rows. -/
def encodeBooleanColumn (column : ColumnSchema) (rows : List Map) : Result EncodedColumnChunk := do
  validateBooleanColumn column
  let (validity, values) ← collectCells texts asBool column rows
  let nullCount := validity.count false
  let payload := withValidity column.nullable validity (Bitmap.encode values)
  let valueCount ← tryU64 rows.length "cmp3 boolean row count is too large"
  let nullCount ← tryU64 nullCount "cmp3 boolean null count is too large"
  let nonNullCount ← okOr (invalidInput "cmp3 boolean count underflow")
    (checkedSub valueCount nullCount)
  let compressedSize ← tryU64 payload.length "cmp3 boolean payload is too large"
  return {
    metadata := {
      name := column.name
      valueType := .bool
      nullable := column.nullable
      codec := .bitmap
      valueCount := valueCount
      nullCount := nullCount
      rawSize := nonNullCount
      compressedSize := compressedSize
      codecMetadata := le64 nonNullCount
      statisticsMetadata := Statistics.encodeBool (UInt64.ofNat (values.count true)) }
    payload := payload }

open BooleanColumn in
/-- Decode a `CMP3` boolean payload into logical row values. -/
def decodeBooleanColumn (metadata : ColumnChunkMetadata) (payload : List UInt8) :
    Result (List (Option Bool)) := do
  validateBooleanMetadata metadata payload
  let valueCount ← tryUsize metadata.valueCount "cmp3 boolean value count is too large"
  failIf (maxDecodedValues < valueCount)
    (invalidInput "cmp3 boolean value count exceeds configured limit")
  let nullCount ← tryUsize metadata.nullCount "cmp3 boolean null count is too large"
  failIf (valueCount < nullCount) (invalidInput "cmp3 boolean count underflow")
  let nonNullCount := valueCount - nullCount
  let (validityPayload, valuePayload) ←
    splitValidity "cmp3 boolean validity bitmap is truncated" metadata.nullable valueCount payload
  let validity ← decodeValidity metadata.nullable valueCount nonNullCount validityPayload
  let values ← Bitmap.decode valuePayload nonNullCount
  let (decoded, rest) ← restoreNulls "cmp3 boolean value bitmap is missing values" validity values
  failIf (rest ≠ []) (invalidInput "cmp3 boolean value bitmap has extra values")
  return decoded

/-! ### Counts -/

theorem decodeBooleanColumn_limit {metadata : ColumnChunkMetadata} {payload : List UInt8}
    {cells : List (Option Bool)} (h : decodeBooleanColumn metadata payload = .ok cells) :
    metadata.valueCount.toNat ≤ maxDecodedValues := by
  simp only [decodeBooleanColumn, bind_ok, tryUsize_eq, Except.ok.injEq, failIf_ok, Nat.not_lt,
    exists_eq_left'] at h
  obtain ⟨_, -, _, hle, -⟩ := h
  exact hle

/-- A decoded column has the counts of its metadata. -/
theorem decodeBooleanColumn_counts {metadata : ColumnChunkMetadata} {payload : List UInt8}
    {cells : List (Option Bool)} (h : decodeBooleanColumn metadata payload = .ok cells) :
    cells.length = metadata.valueCount.toNat ∧
      (cells.map Option.isSome).count false = metadata.nullCount.toNat := by
  simp only [decodeBooleanColumn, bind_ok, tryUsize_eq, Except.ok.injEq, failIf_ok, Nat.not_lt,
    Prod.exists, pure_ok, exists_eq_left'] at h
  obtain ⟨_, -, _, -, _, hle, _, _, -, _, hvalidity, _, -, _, _, hrestore, _, -, rfl⟩ := h
  obtain ⟨hlen, hnull⟩ := restored_counts hvalidity hrestore
  exact ⟨hlen, by omega⟩

/-! ### Round trip -/

/-- **An encoded column decodes to the cells of its rows.** -/
theorem decodeBooleanColumn_encode {column : ColumnSchema} {rows : List Map}
    {chunk : EncodedColumnChunk} (h : encodeBooleanColumn column rows = .ok chunk)
    (hmax : rows.length ≤ maxDecodedValues) :
    ∃ cells, List.Forall₂ (fun row cell =>
        readCell BooleanColumn.texts BooleanColumn.asBool column row = .ok cell) rows cells ∧
      decodeBooleanColumn chunk.metadata chunk.payload = .ok cells ∧
      chunk.metadata.statisticsMetadata =
        Statistics.encodeBool (UInt64.ofNat (cells.reduceOption.count true)) := by
  simp only [encodeBooleanColumn, bind_ok, Prod.exists, collectCells_ok, tryU64_ok, okOr_ok,
    checkedSub_eq_some, pure_ok] at h
  obtain ⟨_, -, _, _, ⟨cells, hcells, rfl, rfl⟩, valueCount, hvc, nullCount, hnc, nonNullCount,
    hnn, compressedSize, hcs, rfl⟩ := h
  obtain ⟨hsum, hreq, bitmap, hsplit, hvalidity⟩ := split_encoded hcells hvc hnc
    (Bitmap.encode cells.reduceOption) "cmp3 boolean validity bitmap is truncated"
  have hlen := hcells.length_eq
  have hnon : valueCount.toNat - nullCount.toNat = cells.reduceOption.length := by omega
  have hle : nullCount ≤ valueCount := by
    rw [UInt64.le_iff_toNat_le]
    omega
  have hsub : valueCount - nullCount = nonNullCount := by
    rw [← UInt64.toNat_inj, UInt64.toNat_sub_of_le _ _ hle]
    omega
  have hpayload : (withValidity column.nullable (cells.map Option.isSome)
      (Bitmap.encode cells.reduceOption)).length =
      (if column.nullable then (valueCount.toNat + 7) / 8 else 0) +
        (nonNullCount.toNat + 7) / 8 := by
    rw [length_withValidity, List.length_map, ← hlen, ← hvc, Bitmap.length_encode, bytesFor,
      show nonNullCount.toNat = cells.reduceOption.length by omega]
  have hvalid : BooleanColumn.validateBooleanMetadata {
      name := column.name
      valueType := .bool
      nullable := column.nullable
      codec := .bitmap
      valueCount := valueCount
      nullCount := nullCount
      rawSize := nonNullCount
      compressedSize := compressedSize
      codecMetadata := le64 nonNullCount
      statisticsMetadata :=
        Statistics.encodeBool (UInt64.ofNat (cells.reduceOption.count true)) }
      (withValidity column.nullable (cells.map Option.isSome)
        (Bitmap.encode cells.reduceOption)) = .ok () := by
    simp only [BooleanColumn.validateBooleanMetadata, bind_ok, failIf_ok, hsub, u64OfLe_le64,
      tryU64_ok, tryUsize_eq, Except.ok.injEq, okOr_ok, usizeAdd_eq_some, UInt64.not_lt, not_and,
      not_or, not_not, exists_const, and_assoc, exists_and_left, exists_eq_left',
      length_le64]
    refine ⟨trivial, trivial, hle, hreq, trivial, trivial, compressedSize, hcs, rfl, ?_, hpayload⟩
    rw [← hpayload, ← hcs]
    exact compressedSize.toNat_lt
  refine ⟨cells, hcells, ?_, rfl⟩
  simp only [decodeBooleanColumn, bind_ok, tryUsize_eq, Except.ok.injEq, failIf_ok, Nat.not_lt,
    Prod.exists, pure_ok, not_not]
  refine ⟨(), hvalid, _, rfl, (), by omega, _, rfl, (), by omega, bitmap, _, hsplit, _, hvalidity,
    cells.reduceOption, ?_, cells, [], ?_, (), rfl, rfl⟩
  · rw [hnon]
    exact Bitmap.decode_encode _
  · exact restoreNulls_ok.2 ⟨rfl, (List.append_nil _).symm⟩

/-- **When a column of booleans is encoded**: the column accepts the rows. -/
theorem exists_encodeBooleanColumn {column : ColumnSchema} {rows : List Map}
    (htype : column.valueType = .bool) (hcodec : column.codec = .bitmap)
    (hmax : rows.length ≤ maxDecodedValues) :
    (∃ chunk, encodeBooleanColumn column rows = .ok chunk) ↔
      ∀ row ∈ rows, Accepted BooleanColumn.asBool column row := by
  have hcol : BooleanColumn.validateBooleanColumn column = .ok () := by
    simp [BooleanColumn.validateBooleanColumn, htype, hcodec]
  have hnone : BooleanColumn.asBool .null = none := rfl
  simp only [encodeBooleanColumn, bind_ok, Prod.exists, collectCells_accepted hnone, pure_ok]
  have hcells : (rows.map fun row => BooleanColumn.asBool (valueOf column row)).length =
      rows.length := List.length_map ..
  generalize (rows.map fun row => BooleanColumn.asBool (valueOf column row)) = cells at hcells ⊢
  constructor
  · rintro ⟨chunk, _, -, _, _, ⟨haccept, -⟩, -⟩
    exact haccept
  · intro haccept
    have hcount := count_false_add cells
    have hsmall : maxDecodedValues * 2 + 2 < 2 ^ 64 := by decide
    have hvalue : (UInt64.ofNat rows.length).toNat = rows.length := toNat_ofNat (by omega)
    have hnull := toNat_ofNat (n := (cells.map Option.isSome).count false) (by omega)
    have hnon := toNat_ofNat (n := cells.reduceOption.length) (by omega)
    have hsub : checkedSub (UInt64.ofNat rows.length)
        (UInt64.ofNat ((cells.map Option.isSome).count false)) =
          some (UInt64.ofNat cells.reduceOption.length) := by
      rw [checkedSub_eq_some, hvalue, hnull, hnon]
      omega
    have hlen := toNat_ofNat (n := (withValidity column.nullable (cells.map Option.isSome)
      (Bitmap.encode cells.reduceOption)).length) (by
      rw [length_withValidity, List.length_map, Bitmap.length_encode, bytesFor]
      split <;> omega)
    exact ⟨_, (), hcol, _, _, ⟨haccept, rfl, rfl⟩, _, tryU64_ok.2 hvalue, _, tryU64_ok.2 hnull, _,
      okOr_ok.2 hsub, _, tryU64_ok.2 hlen, rfl⟩

end CompactCore.Codecs.V3
