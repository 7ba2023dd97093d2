/-
**Columns of the v0.3 format.**

`CMP3` and `CMP4` files share their columns.  A column is encoded with the codec that the schema
names, or with the one that gives the smallest chunk; it is decoded with the codec that its
metadata names, and its statistics are checked twice, against the metadata and against the decoded
values.

Main definitions:

* `CompactCore.Io.V3.encodeColumn`, `CompactCore.Io.V3.decodeColumn` — the two directions;
* `CompactCore.Io.V3.DecodedColumn` — a decoded column;
* `CompactCore.Io.V3.DecodedColumn.Holds` — a decoded column holds the values of some rows.

Main results:

* `CompactCore.Io.V3.encodeColumn_explicit` — an encoded column was encoded with one of the
  implemented codecs;
* `CompactCore.Io.V3.decodeColumn_encodeColumn` — **an encoded column decodes to the values of its
  rows**;
* `CompactCore.Io.V3.decodeColumn_ok` — what a decoded column has to do with its metadata, whatever
  bytes it was decoded from.
-/

import CompactCore.Codecs.V3.Boolean
import CompactCore.Codecs.V3.Numeric
import CompactCore.Codecs.V3.String
import CompactCore.Io.Rows

set_option relaxedAutoImplicit false
set_option autoImplicit false

namespace CompactCore.Io.V3

open Wire CompactError Format.V3 Codecs.V3

/-! ### Schemas -/

def implemented (column : ColumnSchema) : Bool :=
  match column.valueType with
  | .bool =>
      match column.codec with
      | .auto | .bitmap => true
      | _ => false
  | .u64 =>
      match column.codec with
      | .auto | .bitpack | .deltaBitpack | .deltaVarintU64 | .stored => true
      | _ => false
  | .string =>
      match column.codec with
      | .auto | .dictionary | .prefixCodec | .rle | .stored => true
      | _ => false

def validateImplementedSchema (schema : Schema) : Result (List ColumnSchema) := do
  let columns ← schema.supportedColumnsV3
  failIf (columns.any (!implemented ·) = true)
    (unsupported "cmp3 jsonl column codec is not implemented")
  return columns

/-- A schema that the v0.3 encoders and decoders implement. -/
theorem validateImplementedSchema_ok {schema : Schema} {columns : List ColumnSchema}
    (h : validateImplementedSchema schema = .ok columns) :
    columns = schema.columns ∧ columns ≠ [] ∧ (columns.map (·.name)).Nodup := by
  simp only [validateImplementedSchema, bind_ok, Schema.supportedColumnsV3_ok, pure_ok] at h
  obtain ⟨_, ⟨rfl, hne, -, hnodup, -⟩, _, -, rfl⟩ := h
  exact ⟨rfl, hne, hnodup⟩

/-! ### Encoding -/

/-- Encode a column with the codec that the schema names. -/
def encodeExplicit (column : ColumnSchema) (rows : List Map) : Result EncodedColumnChunk :=
  match column.valueType with
  | .bool => encodeBooleanColumn column rows
  | .u64 => encodeU64Column column rows
  | .string => encodeStringColumn column rows

def candidates : SchemaValueType → List SchemaCodec
  | .bool => [.bitmap]
  | .u64 => [.deltaBitpack, .bitpack, .deltaVarintU64, .stored]
  | .string => [.prefixCodec, .dictionary, .rle, .stored]

/-- The state of the loop over the candidates: the smallest chunk so far, with its size, and the
first error. -/
structure Selection where
  best : Option (ℕ × EncodedColumnChunk)
  firstError : Option CompactError

/-- Try one candidate.  Its failure is remembered; a failure to measure it ends the loop. -/
def tryCandidate (column : ColumnSchema) (rows : List Map) (s : Selection) (codec : SchemaCodec) :
    Result Selection :=
  match encodeExplicit { column with codec := codec } rows with
  | .ok chunk => do
      let metadata ← encodeColumnMetadata chunk.metadata
      let size ← okOr (invalidInput "cmp3 candidate encoded size overflow")
        (usizeAdd metadata.length chunk.payload.length)
      return if s.best.all (size < ·.1) then { s with best := some (size, chunk) } else s
  | .error error => .ok { s with firstError := s.firstError.or (some error) }

def selectAutoColumn (column : ColumnSchema) (rows : List Map) : Result EncodedColumnChunk := do
  let s ← (candidates column.valueType).foldlM (tryCandidate column rows) ⟨none, none⟩
  okOr (s.firstError.getD (unsupported "no cmp3 codec candidate")) (s.best.map (·.2))

def encodeColumn (column : ColumnSchema) (rows : List Map) : Result EncodedColumnChunk :=
  if column.codec = .auto then selectAutoColumn column rows else encodeExplicit column rows

/-! ### Decoding -/

inductive DecodedColumn
  | bool (values : List (Option Bool))
  | u64 (values : List (Option UInt64))
  | string (values : List (Option String))
  deriving DecidableEq, Repr

namespace DecodedColumn

def len : DecodedColumn → ℕ
  | bool values => values.length
  | u64 values => values.length
  | string values => values.length

def valueAt (self : DecodedColumn) (rowIndex : ℕ) : Result Value :=
  match self with
  | bool values => do
      let value ← okOr (invalidInput "cmp3 decoded column is shorter than row count")
        values[rowIndex]?
      return (value.map Value.bool).getD .null
  | u64 values => do
      let value ← okOr (invalidInput "cmp3 decoded column is shorter than row count")
        values[rowIndex]?
      return (value.map fun v => Value.number (.posInt v)).getD .null
  | string values => do
      let value ← okOr (invalidInput "cmp3 decoded column is shorter than row count")
        values[rowIndex]?
      return (value.map Value.string).getD .null

end DecodedColumn

def validateStatistics (metadata : ColumnChunkMetadata) : Result Unit := do
  let statistics ← Statistics.decode metadata.statisticsMetadata
  let nonNullCount := metadata.valueCount - metadata.nullCount
  let accepted : Bool :=
    match metadata.valueType, statistics with
    | .u64, .none => nonNullCount == 0
    | .u64, .u64 _ _ => true
    | .bool, .bool trueCount => trueCount ≤ nonNullCount
    | .string, .string distinctCount => distinctCount ≤ nonNullCount
    | _, _ => false
  failIf (accepted = false) (invalidInput "cmp3 statistics do not match column metadata")

def validateDecodedStatistics (metadata : ColumnChunkMetadata) (decoded : DecodedColumn) :
    Result Unit := do
  let statistics ← Statistics.decode metadata.statisticsMetadata
  let agree : Bool :=
    match decoded, statistics with
    | .u64 values, .none => values.all Option.isNone
    | .u64 values, .u64 min max =>
        values.reduceOption.min? == some min && values.reduceOption.max? == some max
    | .bool values, .bool trueCount => UInt64.ofNat (values.count (some true)) == trueCount
    | .string values, .string distinctCount =>
        UInt64.ofNat values.reduceOption.dedup.length == distinctCount
    | _, _ => false
  failIf (agree = false) (invalidInput "cmp3 statistics do not match decoded values")

/-- Decode the values of a column, as its type has them. -/
def decodeValues (metadata : ColumnChunkMetadata) (payload : List UInt8) : Result DecodedColumn :=
  match metadata.valueType with
  | .bool => do
      let values ← decodeBooleanColumn metadata payload
      return .bool values
  | .u64 => do
      let values ← decodeU64Column metadata payload
      return .u64 values
  | .string => do
      let values ← decodeStringColumn metadata payload
      return .string values

def decodeColumn (metadata : ColumnChunkMetadata) (payload : List UInt8) :
    Result DecodedColumn := do
  validateStatistics metadata
  let decoded ← decodeValues metadata payload
  validateDecodedStatistics metadata decoded
  return decoded

def validateMetadataAgainstSchema (metadata : ColumnChunkMetadata) (column : ColumnSchema)
    (rowCount : ℕ) : Result Unit := do
  failIf (metadata.name ≠ column.name ∨ metadata.valueType ≠ column.valueType ∨
      metadata.nullable ≠ column.nullable ∨
      column.codec ≠ .auto ∧ metadata.codec ≠ column.codec)
    (invalidInput "cmp3 column metadata does not match schema")
  let rowCount ← tryU64 rowCount "cmp3 row count is too large"
  failIf (metadata.valueCount ≠ rowCount)
    (invalidInput "cmp3 column value count does not match row group")

/-! ### Which codec encodes a column -/

/-- A selected chunk is what one of the candidates gives, and its metadata was measured. -/
theorem selectAutoColumn_ok {column : ColumnSchema} {rows : List Map} {chunk : EncodedColumnChunk}
    (h : selectAutoColumn column rows = .ok chunk) :
    ∃ codec ∈ candidates column.valueType,
      encodeExplicit { column with codec := codec } rows = .ok chunk ∧
        ∃ record, encodeColumnMetadata chunk.metadata = .ok record := by
  simp only [selectAutoColumn, bind_ok, okOr_ok, Option.map_eq_some_iff] at h
  obtain ⟨s, hfold, ⟨size, best⟩, hbest, rfl⟩ := h
  have hinv := foldlM_invariant
    (P := fun (done : List SchemaCodec) (s : Selection) =>
      ∀ size chunk, s.best = some (size, chunk) →
      ∃ codec ∈ done, encodeExplicit { column with codec := codec } rows = .ok chunk ∧
        ∃ record, encodeColumnMetadata chunk.metadata = .ok record)
    ?_ (fun _ _ h => by cases h) hfold
  · simpa using hinv size best hbest
  · intro done codec s s' ih hstep size chunk hs'
    unfold tryCandidate at hstep
    split at hstep
    · rename_i candidate hcandidate
      simp only [bind_ok, pure_ok] at hstep
      obtain ⟨metadata, hmetadata, size', -, rfl⟩ := hstep
      split at hs'
      · cases hs'
        exact ⟨codec, by simp, hcandidate, metadata, hmetadata⟩
      · obtain ⟨c, hc, henc⟩ := ih size chunk hs'
        exact ⟨c, List.mem_append_left _ hc, henc⟩
    · cases hstep
      obtain ⟨c, hc, henc⟩ := ih size chunk hs'
      exact ⟨c, List.mem_append_left _ hc, henc⟩

/-- **An encoded column was encoded with one codec**: the schema's, if it names one. -/
theorem encodeColumn_explicit {column : ColumnSchema} {rows : List Map}
    {chunk : EncodedColumnChunk} (h : encodeColumn column rows = .ok chunk) :
    ∃ codec, (column.codec ≠ .auto → codec = column.codec) ∧
      encodeExplicit { column with codec := codec } rows = .ok chunk := by
  unfold encodeColumn at h
  split at h
  · rename_i hauto
    obtain ⟨codec, -, henc, -⟩ := selectAutoColumn_ok h
    exact ⟨codec, fun hne => absurd hauto hne, henc⟩
  · exact ⟨column.codec, fun _ => rfl, h⟩

/-! ### Decoded values and their rows -/

namespace DecodedColumn

/-- The entries of a decoded column, as JSON values. -/
def entries : DecodedColumn → List Value
  | bool values => values.map fun value => (value.map Value.bool).getD .null
  | u64 values => values.map fun value => (value.map fun v => Value.number (.posInt v)).getD .null
  | string values => values.map fun value => (value.map Value.string).getD .null

/-- The number of null entries. -/
def nullCount : DecodedColumn → ℕ
  | bool values => (values.map Option.isSome).count false
  | u64 values => (values.map Option.isSome).count false
  | string values => (values.map Option.isSome).count false

@[simp] theorem length_entries (decoded : DecodedColumn) :
    decoded.entries.length = decoded.len := by
  cases decoded <;> exact List.length_map ..

theorem valueAt_ok {decoded : DecodedColumn} {i : ℕ} {value : Value} :
    decoded.valueAt i = .ok value ↔ decoded.entries[i]? = some value := by
  cases decoded <;>
    simp only [valueAt, entries, bind_ok, okOr_ok, pure_ok, List.getElem?_map,
      Option.map_eq_some_iff]

/-- The null entries are those that are counted. -/
theorem countP_isNull (decoded : DecodedColumn) :
    decoded.entries.countP Value.isNull = decoded.nullCount := by
  cases decoded with
  | bool values =>
      rw [entries, nullCount, List.count, List.countP_map, List.countP_map]
      exact List.countP_congr fun cell _ => by cases cell <;> simp [Value.isNull]
  | u64 values =>
      rw [entries, nullCount, List.count, List.countP_map, List.countP_map]
      exact List.countP_congr fun cell _ => by cases cell <;> simp [Value.isNull]
  | string values =>
      rw [entries, nullCount, List.count, List.countP_map, List.countP_map]
      exact List.countP_congr fun cell _ => by cases cell <;> simp [Value.isNull]

/-- `decoded.Holds column rows`: the decoded column has an entry for every row, which is the row's
value in the column. -/
def Holds (decoded : DecodedColumn) (column : ColumnSchema) (rows : List Map) : Prop :=
  decoded.entries = rows.map (valueOf column)

theorem Holds.len_eq {decoded : DecodedColumn} {column : ColumnSchema} {rows : List Map}
    (h : decoded.Holds column rows) : decoded.len = rows.length := by
  rw [← length_entries, h, List.length_map]

end DecodedColumn

theorem asBool_eq_some {value : Value} {b : Bool} :
    BooleanColumn.asBool value = some b ↔ value = .bool b := by
  cases value <;> simp [BooleanColumn.asBool]

/-- The cells of the rows are their values. -/
theorem map_cells {α : Type} {texts : CellTexts} {extract : Value → Option α} {inject : α → Value}
    (hextract : ∀ value cell, extract value = some cell → value = inject cell)
    {column : ColumnSchema} {rows : List Map} {cells : List (Option α)}
    (hcells : List.Forall₂ (fun row cell => readCell texts extract column row = .ok cell) rows
      cells) :
    cells.map (fun cell => (cell.map inject).getD .null) = rows.map (valueOf column) := by
  induction hcells with
  | nil => rfl
  | cons hcell _ ih =>
      rw [List.map_cons, List.map_cons, ih, readCell_getD hextract hcell]
      rfl

theorem holds_bool {texts : CellTexts} {column : ColumnSchema} {rows : List Map}
    {cells : List (Option Bool)} (hcells : List.Forall₂ (fun row cell =>
      readCell texts BooleanColumn.asBool column row = .ok cell) rows cells) :
    (DecodedColumn.bool cells).Holds column rows :=
  map_cells (fun _ _ => asBool_eq_some.1) hcells

theorem holds_u64 {texts : CellTexts} {column : ColumnSchema} {rows : List Map}
    {cells : List (Option UInt64)} (hcells : List.Forall₂ (fun row cell =>
      readCell texts Value.asU64 column row = .ok cell) rows cells) :
    (DecodedColumn.u64 cells).Holds column rows :=
  map_cells (fun _ _ => Value.asU64_eq_some.1) hcells

theorem holds_string {texts : CellTexts} {column : ColumnSchema} {rows : List Map}
    {cells : List (Option String)} (hcells : List.Forall₂ (fun row cell =>
      readCell texts Value.asStr column row = .ok cell) rows cells) :
    (DecodedColumn.string cells).Holds column rows :=
  map_cells (fun _ _ => Value.asStr_eq_some.1) hcells

/-- The strings of a column are its cells that are not null. -/
theorem columnStrings_eq_reduceOption {texts : CellTexts} {column : ColumnSchema}
    {rows : List Map} {cells : List (Option String)} (hcells : List.Forall₂ (fun row cell =>
      readCell texts Value.asStr column row = .ok cell) rows cells) :
    columnStrings column rows = cells.reduceOption := by
  induction hcells with
  | nil => rfl
  | @cons row cell rows cells hcell _ ih =>
      have hrow : (row.get column.name).bind Value.asStr = cell := by
        unfold readCell at hcell
        split at hcell
        · rename_i value hget
          rw [hget, Option.bind_some]
          split at hcell
          · rename_i v hv
            cases hcell
            exact hv
          · rename_i hv
            split_ifs at hcell
            cases hcell
            exact hv
        · rename_i hget
          rw [hget]
          split_ifs at hcell
          cases hcell
          rfl
      rw [columnStrings, List.filterMap_cons, hrow]
      cases cell with
      | none => exact ih
      | some v =>
          rw [List.reduceOption_cons_of_some]
          exact congrArg _ ih

/-! ### Round trip -/

/-- What the metadata of an encoded column says about the column and its rows. -/
structure Describes (chunk : EncodedColumnChunk) (column : ColumnSchema) (rows : List Map) :
    Prop where
  name_eq : chunk.metadata.name = column.name
  valueType_eq : chunk.metadata.valueType = column.valueType
  nullable_eq : chunk.metadata.nullable = column.nullable
  codec_eq : chunk.metadata.codec = column.codec
  valueCount_eq : chunk.metadata.valueCount.toNat = rows.length
  compressedSize_eq : chunk.metadata.compressedSize.toNat = chunk.payload.length
  required : column.nullable = false → chunk.metadata.nullCount = 0
  statistics : ∃ statistics, Statistics.decode chunk.metadata.statisticsMetadata = .ok statistics

/-- Encoded columns describe themselves. -/
theorem encodeExplicit_describes {column : ColumnSchema} {rows : List Map}
    {chunk : EncodedColumnChunk} (h : encodeExplicit column rows = .ok chunk) :
    Describes chunk column rows := by
  have hreq : ∀ {α : Type} {texts : CellTexts} {extract : Value → Option α}
      {cells : List (Option α)} {nullCount : UInt64},
      List.Forall₂ (fun row cell => readCell texts extract column row = .ok cell) rows cells →
      nullCount.toNat = (cells.map Option.isSome).count false →
      column.nullable = false → nullCount = 0 := by
    intro α texts extract cells nullCount hcells hnull hn
    rw [← UInt64.toNat_inj, hnull, forall₂_isSome hn hcells, List.count_replicate]
    rfl
  unfold encodeExplicit at h
  split at h
  · rename_i htype
    simp only [encodeBooleanColumn, BooleanColumn.validateBooleanColumn, bind_ok, failIf_ok,
      Prod.exists, collectCells_ok, tryU64_ok, pure_ok, not_or, not_not] at h
    obtain ⟨_, ⟨-, hcodec⟩, _, _, ⟨cells, hcells, rfl, rfl⟩, _, hvc, _, hnc, _, -, _, hcs, rfl⟩ := h
    exact ⟨rfl, htype.symm, rfl, hcodec.symm, hvc, hcs, hreq hcells hnc, _,
      Statistics.decode_encodeBool _⟩
  · rename_i htype
    simp only [encodeU64Column, NumericColumn.collectValues, NumericColumn.countU64_ok, bind_ok,
      Prod.exists, collectCells_ok, pure_ok] at h
    obtain ⟨_, -, _, _, ⟨cells, hcells, rfl, rfl⟩, _, _, -, _, hvc, _, hnc, _, -, _, -, _, hcs,
      rfl⟩ := h
    exact ⟨rfl, htype.symm, rfl, rfl, hvc, hcs, hreq hcells hnc, Statistics.decode_range _⟩
  · rename_i htype
    simp only [encodeStringColumn, StringColumn.collectValues, StringColumn.countU64_ok, bind_ok,
      Prod.exists, collectCells_ok, pure_ok] at h
    obtain ⟨_, -, _, _, ⟨cells, hcells, rfl, rfl⟩, _, -, _, -, _, hvc, _, hnc, _, hcs, _, -, _, -,
      rfl⟩ := h
    exact ⟨rfl, htype.symm, rfl, rfl, hvc, hcs, hreq hcells hnc, _,
      Statistics.decode_encodeString _⟩

/-- The number of values, as the statistics check computes it. -/
theorem toNat_nonNullCount {α : Type} {metadata : ColumnChunkMetadata} {cells : List (Option α)}
    (hcounts : cells.length = metadata.valueCount.toNat ∧
      (cells.map Option.isSome).count false = metadata.nullCount.toNat) :
    (metadata.valueCount - metadata.nullCount).toNat = cells.reduceOption.length := by
  have hsum := count_false_add cells
  rw [UInt64.toNat_sub_of_le _ _ (by rw [UInt64.le_iff_toNat_le]; omega)]
  omega

theorem count_some_true (cells : List (Option Bool)) :
    cells.count (some true) = cells.reduceOption.count true := by
  induction cells with
  | nil => rfl
  | cons cell cells ih =>
      cases cell with
      | none => simpa using ih
      | some b => cases b <;> simpa using ih

theorem all_isNone_of_reduceOption {α : Type} {cells : List (Option α)}
    (h : cells.reduceOption = []) : cells.all Option.isNone = true := by
  rw [List.all_eq_true]
  intro cell hcell
  cases cell with
  | none => rfl
  | some v =>
      have hv : v ∈ cells.reduceOption := List.reduceOption_mem_iff.2 hcell
      rw [h] at hv
      cases hv

/-- Boolean statistics pass both checks. -/
theorem statistics_bool {metadata : ColumnChunkMetadata} {cells : List (Option Bool)}
    (htype : metadata.valueType = .bool)
    (hcounts : cells.length = metadata.valueCount.toNat ∧
      (cells.map Option.isSome).count false = metadata.nullCount.toNat)
    (hstats : metadata.statisticsMetadata =
      Statistics.encodeBool (UInt64.ofNat (cells.reduceOption.count true))) :
    validateStatistics metadata = .ok () ∧
      validateDecodedStatistics metadata (.bool cells) = .ok () := by
  have hdec := Statistics.decode_encodeBool (UInt64.ofNat (cells.reduceOption.count true))
  have hnon := toNat_nonNullCount hcounts
  constructor
  · simp only [validateStatistics, htype, hstats, hdec, bind_ok, Except.ok.injEq, exists_eq_left',
      failIf_ok, Bool.not_eq_false, decide_eq_true_eq]
    rw [UInt64.le_iff_toNat_le, hnon, UInt64.toNat_ofNat']
    exact le_trans (Nat.mod_le _ _) List.count_le_length
  · simp [validateDecodedStatistics, hstats, hdec, count_some_true]

/-- Integer statistics pass both checks. -/
theorem statistics_u64 {metadata : ColumnChunkMetadata} {cells : List (Option UInt64)}
    (htype : metadata.valueType = .u64)
    (hcounts : cells.length = metadata.valueCount.toNat ∧
      (cells.map Option.isSome).count false = metadata.nullCount.toNat)
    (hstats : metadata.statisticsMetadata =
      Statistics.encodeU64 cells.reduceOption.min? cells.reduceOption.max?) :
    validateStatistics metadata = .ok () ∧
      validateDecodedStatistics metadata (.u64 cells) = .ok () := by
  have hnon := toNat_nonNullCount hcounts
  by_cases hnil : cells.reduceOption = []
  · rw [hnil] at hstats hnon
    have hdec : Statistics.decode metadata.statisticsMetadata = .ok .none := by
      rw [hstats]
      rfl
    have hzero : metadata.valueCount - metadata.nullCount = 0 := UInt64.toNat_inj.1 hnon
    constructor
    · simp [validateStatistics, htype, hdec, hzero]
    · have hall := all_isNone_of_reduceOption hnil
      simp only [validateDecodedStatistics, hdec, hall, bind_ok, Except.ok.injEq, exists_eq_left',
        failIf_ok, Bool.true_eq_false, not_false_eq_true]
  · obtain ⟨min, max, hmin, hmax, hle⟩ := Statistics.exists_range hnil
    rw [hmin, hmax] at hstats
    have hdec := Statistics.decode_encodeU64 hle
    rw [← hstats] at hdec
    constructor
    · simp [validateStatistics, htype, hdec]
    · simp [validateDecodedStatistics, hdec, hmin, hmax]

/-- String statistics pass both checks. -/
theorem statistics_string {metadata : ColumnChunkMetadata} {cells : List (Option String)}
    (htype : metadata.valueType = .string)
    (hcounts : cells.length = metadata.valueCount.toNat ∧
      (cells.map Option.isSome).count false = metadata.nullCount.toNat) {distinctCount : UInt64}
    (hdistinct : distinctCount.toNat = cells.reduceOption.dedup.length)
    (hstats : metadata.statisticsMetadata = Statistics.encodeString distinctCount) :
    validateStatistics metadata = .ok () ∧
      validateDecodedStatistics metadata (.string cells) = .ok () := by
  have hdec := Statistics.decode_encodeString distinctCount
  have hnon := toNat_nonNullCount hcounts
  constructor
  · simp only [validateStatistics, htype, hstats, hdec, bind_ok, Except.ok.injEq, exists_eq_left',
      failIf_ok, Bool.not_eq_false, decide_eq_true_eq]
    rw [UInt64.le_iff_toNat_le, hnon, hdistinct]
    exact (List.dedup_sublist _).length_le
  · simp [validateDecodedStatistics, hstats, hdec, ← hdistinct]

/-- An explicitly encoded column decodes to the values of its rows. -/
theorem decodeColumn_encodeExplicit {column : ColumnSchema} {rows : List Map}
    {chunk : EncodedColumnChunk} (h : encodeExplicit column rows = .ok chunk)
    (hmax : rows.length ≤ maxDecodedValues) (hfit : Fits chunk.payload)
    (hrle : column.codec = .rle →
      ((columnStrings column rows).flatMap Strings.lenPrefixed).length ≤ maxDecodedBytes) :
    ∃ decoded, decodeColumn chunk.metadata chunk.payload = .ok decoded ∧
      decoded.Holds column rows := by
  have hdesc := (encodeExplicit_describes h).valueType_eq
  unfold encodeExplicit at h
  split at h
  · rename_i htype
    rw [htype] at hdesc
    obtain ⟨cells, hcells, hdec, hstats⟩ := decodeBooleanColumn_encode h hmax
    obtain ⟨hmeta, hvalues⟩ := statistics_bool hdesc (decodeBooleanColumn_counts hdec) hstats
    refine ⟨.bool cells, ?_, holds_bool hcells⟩
    simp [decodeColumn, decodeValues, hdesc, hdec, hmeta, hvalues]
  · rename_i htype
    rw [htype] at hdesc
    obtain ⟨cells, hcells, hdec, hstats⟩ := decodeU64Column_encode h hmax
    obtain ⟨hmeta, hvalues⟩ := statistics_u64 hdesc (decodeU64Column_counts hdec) hstats
    refine ⟨.u64 cells, ?_, holds_u64 hcells⟩
    simp [decodeColumn, decodeValues, hdesc, hdec, hmeta, hvalues]
  · rename_i htype
    rw [htype] at hdesc
    obtain ⟨cells, hcells, hdec, distinctCount, hdistinct, hstats⟩ :=
      decodeStringColumn_encode h hmax hfit
    replace hdec := hdec (by rwa [← columnStrings_eq_reduceOption hcells])
    obtain ⟨hmeta, hvalues⟩ :=
      statistics_string hdesc (decodeStringColumn_counts hdec) hdistinct hstats
    refine ⟨.string cells, ?_, holds_string hcells⟩
    simp [decodeColumn, decodeValues, hdesc, hdec, hmeta, hvalues]

/-- **An encoded column decodes to the values of its rows**, and its metadata describes the column
with the codec that was selected for it. -/
theorem decodeColumn_encodeColumn {column : ColumnSchema} {rows : List Map}
    {chunk : EncodedColumnChunk} (h : encodeColumn column rows = .ok chunk)
    (hmax : rows.length ≤ maxDecodedValues) (hfit : Fits chunk.payload)
    (hrle : chunk.metadata.codec = .rle →
      ((columnStrings column rows).flatMap Strings.lenPrefixed).length ≤ maxDecodedBytes) :
    ∃ decoded, decodeColumn chunk.metadata chunk.payload = .ok decoded ∧
      decoded.Holds column rows := by
  obtain ⟨codec, -, henc⟩ := encodeColumn_explicit h
  have hcodec := (encodeExplicit_describes henc).codec_eq
  obtain ⟨decoded, hdec, hholds⟩ :=
    decodeColumn_encodeExplicit henc hmax hfit fun hc => hrle (hcodec.trans hc)
  exact ⟨decoded, hdec, hholds⟩

/-- A column that decodes is within the decoders' limits. -/
theorem decodeColumn_encodeColumn_limit {column : ColumnSchema} {rows : List Map}
    {chunk : EncodedColumnChunk} {decoded : DecodedColumn}
    (h : encodeColumn column rows = .ok chunk)
    (hdec : decodeColumn chunk.metadata chunk.payload = .ok decoded) :
    rows.length ≤ maxDecodedValues ∧ (chunk.metadata.codec = .rle →
      ((columnStrings column rows).flatMap Strings.lenPrefixed).length ≤ maxDecodedBytes) := by
  obtain ⟨codec, -, henc⟩ := encodeColumn_explicit h
  have hdesc := encodeExplicit_describes henc
  simp only [decodeColumn, bind_ok] at hdec
  obtain ⟨_, -, decoded, hvalues, -⟩ := hdec
  have htype : chunk.metadata.valueType = column.valueType := hdesc.valueType_eq
  have hcodec : chunk.metadata.codec = codec := hdesc.codec_eq
  rw [← hdesc.valueCount_eq, hcodec]
  unfold decodeValues at hvalues
  unfold encodeExplicit at henc
  split at hvalues
  · rename_i hbool
    rw [bind_ok] at hvalues
    obtain ⟨cells, hcells, -⟩ := hvalues
    refine ⟨decodeBooleanColumn_limit hcells, fun hrle => ?_⟩
    rw [show column.valueType = .bool from htype.symm.trans hbool] at henc
    simp only [encodeBooleanColumn, BooleanColumn.validateBooleanColumn, bind_ok, failIf_ok,
      hrle] at henc
    obtain ⟨_, hcol, -⟩ := henc
    exact absurd (Or.inr (by decide)) hcol
  · rename_i hu64
    rw [bind_ok] at hvalues
    obtain ⟨cells, hcells, -⟩ := hvalues
    refine ⟨decodeU64Column_limit hcells, fun hrle => ?_⟩
    rw [show column.valueType = .u64 from htype.symm.trans hu64] at henc
    simp only [encodeU64Column, NumericColumn.validateColumn, bind_ok, failIf_ok, hrle] at henc
    obtain ⟨_, hcol, -⟩ := henc
    simp [NumericColumn.implemented] at hcol
  · rename_i hstring
    rw [bind_ok] at hvalues
    obtain ⟨cells, hcells, -⟩ := hvalues
    refine ⟨decodeStringColumn_limit hcells, fun hrle => ?_⟩
    rw [show column.valueType = .string from htype.symm.trans hstring] at henc
    obtain ⟨cells', hcells', hle⟩ := decodeStringColumn_rle_limit henc hrle hcells
    rwa [← columnStrings_eq_reduceOption hcells'] at hle

/-- Encoded columns match the schema. -/
theorem validateMetadataAgainstSchema_encodeColumn {column : ColumnSchema} {rows : List Map}
    {chunk : EncodedColumnChunk} (h : encodeColumn column rows = .ok chunk) :
    validateMetadataAgainstSchema chunk.metadata column rows.length = .ok () := by
  obtain ⟨codec, hcodec, henc⟩ := encodeColumn_explicit h
  have hdesc := encodeExplicit_describes henc
  simp only [validateMetadataAgainstSchema, bind_ok, failIf_ok, tryU64_ok, not_or, not_and,
    not_not]
  refine ⟨(), ⟨hdesc.name_eq, hdesc.valueType_eq, hdesc.nullable_eq, ?_⟩,
    chunk.metadata.valueCount, hdesc.valueCount_eq, rfl⟩
  intro hne
  rw [hdesc.codec_eq]
  exact hcodec hne

/-! ### Decoding arbitrary bytes -/

/-- `decoded.Agrees metadata`: a decoded column has the counts of its metadata, and its integers
are in the range of its statistics. -/
structure DecodedColumn.Agrees (decoded : DecodedColumn) (metadata : ColumnChunkMetadata) :
    Prop where
  len_eq : decoded.len = metadata.valueCount.toNat
  nullCount_eq : decoded.nullCount = metadata.nullCount.toNat
  mem_range : ∀ min max, Statistics.decode metadata.statisticsMetadata = .ok (.u64 min max) →
    ∀ value ∈ decoded.entries, ∀ v, value.asU64 = some v → min ≤ v ∧ v ≤ max

theorem decodeValues_counts {metadata : ColumnChunkMetadata} {payload : List UInt8}
    {decoded : DecodedColumn} (h : decodeValues metadata payload = .ok decoded) :
    decoded.len = metadata.valueCount.toNat ∧ decoded.nullCount = metadata.nullCount.toNat := by
  unfold decodeValues at h
  split at h
  · rw [bind_ok] at h
    obtain ⟨values, hvalues, hdec⟩ := h
    cases hdec
    exact decodeBooleanColumn_counts hvalues
  · rw [bind_ok] at h
    obtain ⟨values, hvalues, hdec⟩ := h
    cases hdec
    exact decodeU64Column_counts hvalues
  · rw [bind_ok] at h
    obtain ⟨values, hvalues, hdec⟩ := h
    cases hdec
    exact decodeStringColumn_counts hvalues

/-- The second statistics check bounds the integers of a column. -/
theorem validateDecodedStatistics_range {metadata : ColumnChunkMetadata} {decoded : DecodedColumn}
    {min max : UInt64} (h : validateDecodedStatistics metadata decoded = .ok ())
    (hdec : Statistics.decode metadata.statisticsMetadata = .ok (.u64 min max)) {value : Value}
    (hvalue : value ∈ decoded.entries) {v : UInt64} (hv : value.asU64 = some v) :
    min ≤ v ∧ v ≤ max := by
  simp only [validateDecodedStatistics, hdec, bind_ok, Except.ok.injEq, exists_eq_left',
    failIf_ok, Bool.not_eq_false] at h
  cases decoded with
  | bool values => cases h
  | string values => cases h
  | u64 values =>
      simp only [Bool.and_eq_true, beq_iff_eq] at h
      obtain ⟨cell, hcell, rfl⟩ := List.mem_map.1 hvalue
      cases cell with
      | none => cases hv
      | some w =>
          obtain rfl : w = v := by simpa [Value.asU64] using hv
          exact Statistics.mem_range h.1 h.2 (List.reduceOption_mem_iff.2 hcell)

/-- **A decoded column agrees with its metadata**, whatever bytes it was decoded from. -/
theorem decodeColumn_ok {metadata : ColumnChunkMetadata} {payload : List UInt8}
    {decoded : DecodedColumn} (h : decodeColumn metadata payload = .ok decoded) :
    decoded.Agrees metadata := by
  simp only [decodeColumn, bind_ok, pure_ok] at h
  obtain ⟨_, -, _, hvalues, _, hstats, rfl⟩ := h
  obtain ⟨hlen, hnull⟩ := decodeValues_counts hvalues
  exact ⟨hlen, hnull, fun min max hdec value hvalue v hv =>
    validateDecodedStatistics_range hstats hdec hvalue hv⟩

end CompactCore.Io.V3
