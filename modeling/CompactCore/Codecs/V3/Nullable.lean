/-
**Nullable columns.**

The three column codecs of the v0.3 format treat null values alike.  A nullable column keeps a
validity bitmap, one bit to a row, in front of its values, and stores the values of the rows that
have one.  This module has the common part: reading the cells of a column off the rows, and putting
values and nulls together again.

Main definitions:

* `CompactCore.Codecs.V3.EncodedColumnChunk` — an encoded column;
* `CompactCore.Codecs.V3.readCell`, `CompactCore.Codecs.V3.collectCells` — the cells of a column;
* `CompactCore.Codecs.V3.splitValidity`, `CompactCore.Codecs.V3.decodeValidity`,
  `CompactCore.Codecs.V3.restoreNulls` — the parts of decoding.

Main results:

* `CompactCore.Codecs.V3.collectCells_ok` — what is collected are the cells of the rows;
* `CompactCore.Codecs.V3.restoreNulls_ok` — values and nulls are put together exactly;
* `CompactCore.Codecs.V3.split_encoded` — the validity bitmap is read back.
-/

import CompactCore.Format.V3
import CompactCore.Io.Rows
import CompactCore.Primitives.Bitmap
import Mathlib.Data.List.ReduceOption

set_option relaxedAutoImplicit false
set_option autoImplicit false

namespace CompactCore.Codecs.V3

open Wire CompactError Format.V3
open Io (valueOf)

variable {α : Type}

/-- One encoded `CMP3` column before row-group framing. -/
structure EncodedColumnChunk where
  metadata : ColumnChunkMetadata
  payload : List UInt8
  deriving DecidableEq, Repr

/-! ### Cells -/

/-- The error texts of a column type. -/
structure CellTexts where
  mustNotBeNull : String
  missing : String
  wrongType : String

/-- The cell of a row: a value of the column's type, or null where the column allows it. -/
def readCell (texts : CellTexts) (extract : Value → Option α) (column : ColumnSchema) (row : Map) :
    Result (Option α) :=
  match row.get column.name with
  | some value =>
      match extract value with
      | some cell => .ok (some cell)
      | none =>
          if value.isNull then
            if column.nullable then .ok none else .error (invalidInput texts.mustNotBeNull)
          else .error (invalidInput texts.wrongType)
  | none => if column.nullable then .ok none else .error (invalidInput texts.missing)

/-- The validity of every row and the values of the rows that have one. -/
def collectCells (texts : CellTexts) (extract : Value → Option α) (column : ColumnSchema) :
    List Map → Result (List Bool × List α)
  | [] => .ok ([], [])
  | row :: rows => do
      let cell ← readCell texts extract column row
      let (validity, values) ← collectCells texts extract column rows
      match cell with
      | some value => return (true :: validity, value :: values)
      | none => return (false :: validity, values)

/-- **What is collected are the cells of the rows.** -/
theorem collectCells_ok {texts : CellTexts} {extract : Value → Option α} {column : ColumnSchema}
    {rows : List Map} {validity : List Bool} {values : List α} :
    collectCells texts extract column rows = .ok (validity, values) ↔
      ∃ cells, List.Forall₂ (fun row cell => readCell texts extract column row = .ok cell) rows
        cells ∧ validity = cells.map Option.isSome ∧ values = cells.reduceOption := by
  induction rows generalizing validity values with
  | nil =>
      simp only [collectCells, Except.ok.injEq, Prod.mk.injEq, List.forall₂_nil_left_iff,
        exists_eq_left, List.map_nil, List.reduceOption_nil]
      exact and_congr eq_comm eq_comm
  | cons row rows ih =>
      simp only [collectCells, bind_ok, Prod.exists, List.forall₂_cons_left_iff]
      constructor
      · intro h
        obtain ⟨cell, hcell, validity', values', hrest, h⟩ := h
        obtain ⟨cells, hcells, rfl, rfl⟩ := ih.1 hrest
        refine ⟨cell :: cells, ⟨cell, cells, hcell, hcells, rfl⟩, ?_⟩
        cases cell with
        | none =>
            rw [pure_ok, Prod.mk.injEq] at h
            exact ⟨h.1.symm, h.2.symm⟩
        | some value =>
            rw [pure_ok, Prod.mk.injEq] at h
            exact ⟨h.1.symm, h.2.symm⟩
      · intro h
        obtain ⟨_, ⟨cell, cells, hcell, hcells, rfl⟩, rfl, rfl⟩ := h
        refine ⟨cell, hcell, _, _, ih.2 ⟨cells, hcells, rfl, rfl⟩, ?_⟩
        cases cell <;> rfl

/-- `Accepted extract column row`: the row has a value of the column's type, or null where the
column allows it. -/
def Accepted (extract : Value → Option α) (column : ColumnSchema) (row : Map) : Prop :=
  (extract (valueOf column row)).isSome = true ∨
    valueOf column row = .null ∧ column.nullable = true

/-- **A cell is read off exactly the rows that the column accepts.** -/
theorem readCell_ok {texts : CellTexts} {extract : Value → Option α}
    (hnull : extract .null = none) {column : ColumnSchema} {row : Map} {cell : Option α} :
    readCell texts extract column row = .ok cell ↔
      Accepted extract column row ∧ cell = extract (valueOf column row) := by
  unfold readCell Accepted valueOf
  cases row.get column.name with
  | none =>
      -- a row without the member is treated like one with null
      rw [Option.getD_none, hnull]
      cases column.nullable with
      | false => simp
      | true => simpa using eq_comm
  | some value =>
      rw [Option.getD_some]
      cases hcell : extract value with
      | some v => simpa [hcell] using eq_comm
      | none =>
          cases hvalue : column.nullable with
          | false => cases value <;> simp [hcell, Value.isNull]
          | true => cases value <;> simp [hcell, Value.isNull, eq_comm]

theorem forall₂_readCell {texts : CellTexts} {extract : Value → Option α}
    (hnull : extract .null = none) {column : ColumnSchema} {rows : List Map}
    {cells : List (Option α)} :
    List.Forall₂ (fun row cell => readCell texts extract column row = .ok cell) rows cells ↔
      (∀ row ∈ rows, Accepted extract column row) ∧
        cells = rows.map fun row => extract (valueOf column row) := by
  induction rows generalizing cells with
  | nil => simp
  | cons row rows ih =>
      rw [List.forall₂_cons_left_iff, List.forall_mem_cons, List.map_cons]
      simp only [ih]
      simp only [readCell_ok hnull]
      constructor
      · rintro ⟨cell, rest, ⟨haccept, rfl⟩, ⟨hrest, rfl⟩, rfl⟩
        exact ⟨⟨haccept, hrest⟩, rfl⟩
      · rintro ⟨⟨haccept, hrest⟩, rfl⟩
        exact ⟨_, _, ⟨haccept, rfl⟩, ⟨hrest, rfl⟩, rfl⟩

/-- **The cells of rows are collected exactly when the column accepts every row.** -/
theorem collectCells_accepted {texts : CellTexts} {extract : Value → Option α}
    (hnull : extract .null = none) {column : ColumnSchema} {rows : List Map}
    {validity : List Bool} {values : List α} :
    collectCells texts extract column rows = .ok (validity, values) ↔
      (∀ row ∈ rows, Accepted extract column row) ∧
        validity = (rows.map fun row => extract (valueOf column row)).map Option.isSome ∧
        values = (rows.map fun row => extract (valueOf column row)).reduceOption := by
  rw [collectCells_ok]
  constructor
  · rintro ⟨cells, hcells, rfl, rfl⟩
    obtain ⟨haccept, rfl⟩ := (forall₂_readCell hnull).1 hcells
    exact ⟨haccept, rfl, rfl⟩
  · rintro ⟨haccept, rfl, rfl⟩
    exact ⟨_, (forall₂_readCell hnull).2 ⟨haccept, rfl⟩, rfl, rfl⟩

/-- A cell holds the row's value, and is null where the row has none or has null. -/
theorem readCell_getD {texts : CellTexts} {extract : Value → Option α} {inject : α → Value}
    (hextract : ∀ value cell, extract value = some cell → value = inject cell)
    {column : ColumnSchema} {row : Map} {cell : Option α}
    (h : readCell texts extract column row = .ok cell) :
    (cell.map inject).getD .null = (row.get column.name).getD .null := by
  unfold readCell at h
  split at h
  · rename_i value hget
    rw [hget]
    split at h
    · rename_i v hv
      cases h
      exact (hextract value v hv).symm
    · split at h
      · rename_i hnull
        split at h
        · cases h
          cases value <;> simp [Value.isNull] at hnull ⊢
        · cases h
      · cases h
  · rename_i hget
    rw [hget]
    split at h
    · cases h
      rfl
    · cases h

/-- A required column has no null cells. -/
theorem readCell_isSome {texts : CellTexts} {extract : Value → Option α} {column : ColumnSchema}
    {row : Map} {cell : Option α} (hnullable : column.nullable = false)
    (h : readCell texts extract column row = .ok cell) : cell.isSome = true := by
  unfold readCell at h
  split at h
  · split at h
    · cases h
      rfl
    · split at h
      · rw [hnullable] at h
        cases h
      · cases h
  · rw [hnullable] at h
    cases h

theorem forall₂_isSome {texts : CellTexts} {extract : Value → Option α} {column : ColumnSchema}
    {rows : List Map} {cells : List (Option α)} (hnullable : column.nullable = false)
    (h : List.Forall₂ (fun row cell => readCell texts extract column row = .ok cell) rows cells) :
    cells.map Option.isSome = List.replicate cells.length true := by
  induction h with
  | nil => rfl
  | cons hcell _ ih =>
      rw [List.map_cons, ih, readCell_isSome hnullable hcell]
      rfl

/-! ### Counting -/

theorem count_true_map_isSome (cells : List (Option α)) :
    (cells.map Option.isSome).count true = cells.reduceOption.length := by
  induction cells with
  | nil => rfl
  | cons cell cells ih => cases cell <;> simp [ih]

/-- Nulls and values make up the rows. -/
theorem count_false_add (cells : List (Option α)) :
    (cells.map Option.isSome).count false + cells.reduceOption.length = cells.length := by
  induction cells with
  | nil => rfl
  | cons cell cells ih =>
      cases cell
      · simp
        omega
      · simp
        omega

/-! ### Decoding -/

/-- Cut the validity bitmap off the front of a payload. -/
def splitValidity (truncated : String) (nullable : Bool) (valueCount : ℕ) (payload : List UInt8) :
    Result (List UInt8 × List UInt8) := do
  let validityLen := if nullable then (valueCount + 7) / 8 else 0
  failIf (payload.length < validityLen) (invalidInput truncated)
  return (payload.take validityLen, payload.drop validityLen)

/-- The validity of every row. -/
def readValidity (nullable : Bool) (valueCount : ℕ) (validityPayload : List UInt8) :
    Result (List Bool) :=
  if nullable then Bitmap.decode validityPayload valueCount
  else .ok (List.replicate valueCount true)

/-- The validity of every row, checked against the number of values. -/
def decodeValidity (nullable : Bool) (valueCount nonNullCount : ℕ) (validityPayload : List UInt8) :
    Result (List Bool) := do
  let validity ← readValidity nullable valueCount validityPayload
  failIf (validity.count true ≠ nonNullCount)
    (invalidInput "cmp3 validity bitmap does not match null count")
  return validity

/-- Give every valid row its value.  Also returns the values that are left over. -/
def restoreNulls (missing : String) : List Bool → List α → Result (List (Option α) × List α)
  | [], values => .ok ([], values)
  | true :: _, [] => .error (invalidInput missing)
  | true :: validity, value :: values => do
      let (decoded, rest) ← restoreNulls missing validity values
      return (some value :: decoded, rest)
  | false :: validity, values => do
      let (decoded, rest) ← restoreNulls missing validity values
      return (none :: decoded, rest)

/-- **Values and nulls are put together exactly.** -/
theorem restoreNulls_ok {missing : String} {validity : List Bool} {values rest : List α}
    {decoded : List (Option α)} :
    restoreNulls missing validity values = .ok (decoded, rest) ↔
      validity = decoded.map Option.isSome ∧ values = decoded.reduceOption ++ rest := by
  induction validity generalizing values decoded rest with
  | nil =>
      simp only [restoreNulls, Except.ok.injEq, Prod.mk.injEq]
      constructor
      · intro h
        obtain ⟨rfl, rfl⟩ := h
        exact ⟨rfl, rfl⟩
      · intro h
        obtain ⟨hnil, rfl⟩ := h
        obtain rfl : decoded = [] := by simpa using hnil.symm
        exact ⟨rfl, rfl⟩
  | cons present validity ih =>
      cases present with
      | false =>
          simp only [restoreNulls, bind_ok, Prod.exists, pure_ok, Prod.mk.injEq, ih]
          constructor
          · intro h
            obtain ⟨decoded', rest', ⟨rfl, rfl⟩, rfl, rfl⟩ := h
            exact ⟨rfl, rfl⟩
          · intro h
            obtain ⟨hcells, rfl⟩ := h
            cases decoded with
            | nil => simp at hcells
            | cons cell decoded =>
                rw [List.map_cons, List.cons.injEq] at hcells
                cases cell with
                | none => exact ⟨decoded, rest, ⟨hcells.2, rfl⟩, rfl, rfl⟩
                | some v => simp at hcells
      | true =>
          cases values with
          | nil =>
              simp only [restoreNulls, reduceCtorEq, false_iff, not_and]
              intro hcells hnil
              cases decoded with
              | nil => simp at hcells
              | cons cell decoded =>
                  cases cell with
                  | none => simp at hcells
                  | some v => simp at hnil
          | cons value values =>
              simp only [restoreNulls, bind_ok, Prod.exists, pure_ok, Prod.mk.injEq, ih]
              constructor
              · intro h
                obtain ⟨decoded', rest', ⟨rfl, rfl⟩, rfl, rfl⟩ := h
                exact ⟨rfl, rfl⟩
              · intro h
                obtain ⟨hcells, hvalues⟩ := h
                cases decoded with
                | nil => simp at hcells
                | cons cell decoded =>
                    rw [List.map_cons, List.cons.injEq] at hcells
                    cases cell with
                    | none => simp at hcells
                    | some v =>
                        rw [List.reduceOption_cons_of_some, List.cons_append,
                          List.cons.injEq] at hvalues
                        obtain ⟨rfl, rfl⟩ := hvalues
                        exact ⟨decoded, rest, ⟨hcells.2, rfl⟩, rfl, rfl⟩

/-- What a decoded validity counts. -/
theorem decodeValidity_ok {nullable : Bool} {valueCount nonNullCount : ℕ}
    {validityPayload : List UInt8} {validity : List Bool}
    (h : decodeValidity nullable valueCount nonNullCount validityPayload = .ok validity) :
    validity.length = valueCount ∧ validity.count true = nonNullCount := by
  simp only [decodeValidity, bind_ok, failIf_ok, not_not, pure_ok] at h
  obtain ⟨validity', hread, _, hcount, rfl⟩ := h
  refine ⟨?_, hcount⟩
  unfold readValidity at hread
  split at hread
  · exact (Bitmap.decode_ok.1 hread).2
  · cases hread
    exact List.length_replicate ..

/-- **What a decoder gives back**, whatever bytes it read: an entry for every row, and a null for
every row that has no value. -/
theorem restored_counts {nullable : Bool} {valueCount nonNullCount : ℕ}
    {validityPayload : List UInt8} {validity : List Bool} {missing : String} {values rest : List α}
    {decoded : List (Option α)}
    (hvalidity : decodeValidity nullable valueCount nonNullCount validityPayload = .ok validity)
    (hrestore : restoreNulls missing validity values = .ok (decoded, rest)) :
    decoded.length = valueCount ∧
      (decoded.map Option.isSome).count false + nonNullCount = valueCount := by
  obtain ⟨hlen, hcount⟩ := decodeValidity_ok hvalidity
  obtain ⟨rfl, -⟩ := restoreNulls_ok.1 hrestore
  have hsum := count_false_add decoded
  rw [List.length_map] at hlen
  rw [count_true_map_isSome] at hcount
  exact ⟨hlen, by omega⟩

/-! ### Round trip -/

/-- The payload of a column: its validity, if it is nullable, and its encoded values. -/
def withValidity (nullable : Bool) (validity : List Bool) (values : List UInt8) : List UInt8 :=
  (if nullable then Bitmap.encode validity else []) ++ values

theorem length_withValidity (nullable : Bool) (validity : List Bool) (values : List UInt8) :
    (withValidity nullable validity values).length =
      (if nullable then (validity.length + 7) / 8 else 0) + values.length := by
  cases nullable with
  | false => simp [withValidity]
  | true => simp [withValidity, bytesFor]

/-- **The validity bitmap is read back.** -/
theorem decodeValidity_encode {nullable : Bool} {validity : List Bool} (values : List UInt8)
    (truncated : String)
    (hreq : nullable = false → validity = List.replicate validity.length true) :
    ∃ validityPayload,
      splitValidity truncated nullable validity.length (withValidity nullable validity values) =
        .ok (validityPayload, values) ∧
      decodeValidity nullable validity.length (validity.count true) validityPayload =
        .ok validity := by
  cases nullable with
  | true =>
      have hlen : (Bitmap.encode validity).length = (validity.length + 7) / 8 :=
        Bitmap.length_encode validity
      refine ⟨Bitmap.encode validity, ?_, ?_⟩
      · simp only [splitValidity, withValidity, if_true, bind_ok, failIf_ok, pure_ok, Prod.mk.injEq,
          exists_const]
        refine ⟨?_, List.take_left' hlen, List.drop_left' hlen⟩
        rw [List.length_append]
        omega
      · simp [decodeValidity, readValidity, Bitmap.decode_encode]
  | false =>
      refine ⟨[], ?_, ?_⟩
      · simp [splitValidity, withValidity]
      · simp only [decodeValidity, readValidity, bind_ok, failIf_ok, not_not, pure_ok, exists_const]
        exact ⟨validity, by rw [← hreq rfl]; rfl, rfl, rfl⟩

/-- **A decoder finds what an encoder counted**: the counts add up, and the payload splits into the
validity of the rows and their encoded values. -/
theorem split_encoded {texts : CellTexts} {extract : Value → Option α} {column : ColumnSchema}
    {rows : List Map} {cells : List (Option α)} {valueCount nullCount : UInt64}
    (hcells : List.Forall₂ (fun row cell => readCell texts extract column row = .ok cell)
      rows cells)
    (hvalue : valueCount.toNat = rows.length)
    (hnull : nullCount.toNat = (cells.map Option.isSome).count false) (encoded : List UInt8)
    (truncated : String) :
    nullCount.toNat + cells.reduceOption.length = valueCount.toNat ∧
      (column.nullable = false → nullCount = 0) ∧
      ∃ bitmap, splitValidity truncated column.nullable valueCount.toNat
          (withValidity column.nullable (cells.map Option.isSome) encoded) = .ok (bitmap, encoded) ∧
        decodeValidity column.nullable valueCount.toNat (valueCount.toNat - nullCount.toNat)
          bitmap = .ok (cells.map Option.isSome) := by
  have hlen := hcells.length_eq
  have hsum := count_false_add cells
  have htrue := count_true_map_isSome cells
  have hvlen : (cells.map Option.isSome).length = valueCount.toNat := by
    rw [List.length_map, hvalue, hlen]
  have hall : column.nullable = false →
      cells.map Option.isSome = List.replicate (cells.map Option.isSome).length true := by
    intro hn
    rw [List.length_map]
    exact forall₂_isSome hn hcells
  obtain ⟨bitmap, hsplit, hvalidity⟩ := decodeValidity_encode encoded truncated hall
  have hnon : valueCount.toNat - nullCount.toNat = (cells.map Option.isSome).count true := by omega
  rw [hvlen] at hsplit hvalidity
  refine ⟨by omega, ?_, bitmap, hsplit, by rw [hnon]; exact hvalidity⟩
  intro hn
  rw [← UInt64.toNat_inj, hnull, forall₂_isSome hn hcells, List.count_replicate]
  rfl

end CompactCore.Codecs.V3
