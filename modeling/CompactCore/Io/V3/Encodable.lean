/-
**Which columns of the v0.3 format are encoded.**

A column is encoded when its rows have values of its type, or null where it allows that, and when
its codec takes the values.  The selected codec is always one that does; but the selection measures
the metadata of its candidates, so that it also needs a name that the metadata can hold.

Main definitions:

* `CompactCore.Io.V3.HasType` — the values that a column accepts;
* `CompactCore.Io.V3.Encodable` — the rows that are encoded;
* `CompactCore.Io.V3.DecodedColumn.ofRows`, `CompactCore.Io.V3.DecodedColumn.statistics` — what a
  decoder has to give back.

Main results:

* `CompactCore.Io.V3.exists_encodeColumn` — **exactly these rows are encoded**;
* `CompactCore.Io.V3.decodeColumn_rows` — **what was encoded decodes to its rows**, and its metadata
  describes them.
-/

import CompactCore.Io.V3

set_option relaxedAutoImplicit false
set_option autoImplicit false

namespace CompactCore.Io.V3

open Wire CompactError Format.V3 Codecs.V3

/-! ### What a column is about -/

/-- A value has the type of a column, or is null where the column allows it. -/
def HasType (column : ColumnSchema) (value : Value) : Prop :=
  (value = .null ∧ column.nullable = true) ∨
    match column.valueType with
    | .bool => ∃ b, value = .bool b
    | .u64 => ∃ n, value = .number (.posInt n)
    | .string => ∃ s, value = .string s

/-- The numbers that the rows have in a column. -/
def columnNumbers (column : ColumnSchema) (rows : List Map) : List UInt64 :=
  rows.filterMap fun row => (valueOf column row).asU64

/-- The strings of a column take at most a quarter of the address space. -/
def StringsFit (column : ColumnSchema) (rows : List Map) : Prop :=
  StringColumn.totalBytes (columnStrings column rows) < 2 ^ 62

/-- The name of a column fits into a metadata record. -/
def NameFits (column : ColumnSchema) : Prop :=
  column.name ≠ "" ∧ (asBytes column.name).length < 2 ^ 16

/-- The rows that are encoded. -/
structure Encodable (column : ColumnSchema) (rows : List Map) : Prop where
  hasType : ∀ row ∈ rows, HasType column (valueOf column row)
  increasing : column.codec = .deltaBitpack ∨ column.codec = .deltaVarintU64 →
    (columnNumbers column rows).IsChain (· ≤ ·)
  distinct : column.codec = .dictionary →
    (columnStrings column rows).dedup.length ≤ StringColumn.maxDictionaryEntries
  nameFits : column.codec = .auto → NameFits column

/-- The column that rows decode to: an entry for every row, and none for null. -/
def DecodedColumn.ofRows (column : ColumnSchema) (rows : List Map) : DecodedColumn :=
  match column.valueType with
  | .bool => .bool (rows.map fun row => BooleanColumn.asBool (valueOf column row))
  | .u64 => .u64 (rows.map fun row => (valueOf column row).asU64)
  | .string => .string (rows.map fun row => (valueOf column row).asStr)

/-- The statistics of a column: the range of its numbers, the booleans that are true, the number of
distinct strings. -/
def DecodedColumn.statistics : DecodedColumn → ColumnStatistics
  | .bool values => .bool (UInt64.ofNat (values.count (some true)))
  | .u64 values =>
      match values.reduceOption.min?, values.reduceOption.max? with
      | some min, some max => .u64 min max
      | _, _ => .none
  | .string values => .string (UInt64.ofNat values.reduceOption.dedup.length)

theorem reduceOption_map {α β : Type} (f : α → Option β) (xs : List α) :
    (xs.map f).reduceOption = xs.filterMap f := by
  rw [List.reduceOption, List.filterMap_map]
  rfl

theorem columnNumbers_eq (column : ColumnSchema) (rows : List Map) :
    (rows.map fun row => (valueOf column row).asU64).reduceOption = columnNumbers column rows :=
  reduceOption_map _ rows

theorem columnStrings_eq (column : ColumnSchema) (rows : List Map) :
    (rows.map fun row => (valueOf column row).asStr).reduceOption = columnStrings column rows := by
  rw [reduceOption_map, columnStrings]
  congr 1
  funext row
  rw [valueOf]
  cases row.get column.name <;> rfl

theorem hasType_bool {column : ColumnSchema} {row : Map} (htype : column.valueType = .bool) :
    HasType column (valueOf column row) ↔ Accepted BooleanColumn.asBool column row := by
  rw [HasType, Accepted, htype, or_comm, Option.isSome_iff_exists]
  simp only [asBool_eq_some]

theorem hasType_u64 {column : ColumnSchema} {row : Map} (htype : column.valueType = .u64) :
    HasType column (valueOf column row) ↔ Accepted Value.asU64 column row := by
  rw [HasType, Accepted, htype, or_comm, Option.isSome_iff_exists]
  simp only [Value.asU64_eq_some]

theorem hasType_string {column : ColumnSchema} {row : Map} (htype : column.valueType = .string) :
    HasType column (valueOf column row) ↔ Accepted Value.asStr column row := by
  rw [HasType, Accepted, htype, or_comm, Option.isSome_iff_exists]
  simp only [Value.asStr_eq_some]

/-! ### A codec that the schema names -/

/-- **What a codec is encoded for**: rows of its type that the codec takes. -/
theorem exists_encodeExplicit {column : ColumnSchema} {rows : List Map}
    (himpl : implemented column = true) (hauto : column.codec ≠ .auto)
    (hmax : rows.length ≤ maxDecodedValues) (hmem : StringsFit column rows) :
    (∃ chunk, encodeExplicit column rows = .ok chunk) ↔ Encodable column rows := by
  have hname : column.codec = .auto → NameFits column := fun h => absurd h hauto
  cases htype : column.valueType with
  | bool =>
      have hcodec : column.codec = .bitmap := by
        revert himpl
        rw [implemented, htype]
        cases hcodec : column.codec <;> simp_all
      simp only [encodeExplicit, htype, exists_encodeBooleanColumn htype hcodec hmax]
      constructor
      · intro haccept
        exact ⟨fun row hrow => (hasType_bool htype).2 (haccept row hrow), by simp [hcodec],
          by simp [hcodec], hname⟩
      · intro h row hrow
        exact (hasType_bool htype).1 (h.hasType row hrow)
  | u64 =>
      have hcodec : NumericColumn.implemented column.codec = true := by
        revert himpl
        rw [implemented, htype]
        cases hcodec : column.codec <;> simp_all [NumericColumn.implemented]
      have hdict : column.codec ≠ .dictionary := by
        rintro heq
        rw [heq] at hcodec
        cases hcodec
      simp only [encodeExplicit, htype, exists_encodeU64Column htype hcodec hmax,
        columnNumbers_eq]
      constructor
      · rintro ⟨haccept, hchain⟩
        exact ⟨fun row hrow => (hasType_u64 htype).2 (haccept row hrow), hchain,
          fun h => absurd h hdict, hname⟩
      · intro h
        exact ⟨fun row hrow => (hasType_u64 htype).1 (h.hasType row hrow), h.increasing⟩
  | string =>
      have hcodec : StringColumn.implemented column.codec = true := by
        revert himpl
        rw [implemented, htype]
        cases hcodec : column.codec <;> simp_all [StringColumn.implemented]
      have hdelta : ¬(column.codec = .deltaBitpack ∨ column.codec = .deltaVarintU64) := by
        rintro (heq | heq)
        all_goals
          rw [heq] at hcodec
          cases hcodec
      have hfit : StringColumn.totalBytes
          (rows.map fun row => (valueOf column row).asStr).reduceOption < 2 ^ 62 := by
        rw [columnStrings_eq]
        exact hmem
      simp only [encodeExplicit, htype, exists_encodeStringColumn htype hcodec hmax hfit,
        columnStrings_eq]
      constructor
      · rintro ⟨haccept, hdistinct⟩
        exact ⟨fun row hrow => (hasType_string htype).2 (haccept row hrow),
          fun h => absurd h hdelta, hdistinct, hname⟩
      · intro h
        exact ⟨fun row hrow => (hasType_string htype).1 (h.hasType row hrow), h.distinct⟩

/-! ### The codec that is selected -/

/-- The sizes of an encoded column. -/
structure Small (chunk : EncodedColumnChunk) (column : ColumnSchema) (rows : List Map) :
    Prop where
  null_le : chunk.metadata.nullCount ≤ chunk.metadata.valueCount
  selectable : selectable chunk.metadata.valueType chunk.metadata.codec = true
  codecMetadata_le : chunk.metadata.codecMetadata.length ≤ 17
  statisticsMetadata_le : chunk.metadata.statisticsMetadata.length ≤ 17
  payload_le : chunk.payload.length ≤
    2 * StringColumn.totalBytes (columnStrings column rows) + 21 * rows.length + 11

theorem encodeExplicit_small {column : ColumnSchema} {rows : List Map}
    {chunk : EncodedColumnChunk} (h : encodeExplicit column rows = .ok chunk) :
    Small chunk column rows := by
  unfold encodeExplicit at h
  split at h
  · have hnone : BooleanColumn.asBool .null = none := rfl
    simp only [encodeBooleanColumn, bind_ok, Prod.exists, collectCells_accepted hnone, tryU64_ok,
      pure_ok] at h
    obtain ⟨_, -, _, _, ⟨-, rfl, rfl⟩, valueCount, hvc, nullCount, hnc, _, -, _, -, rfl⟩ := h
    have hcount := count_false_add (rows.map fun row => BooleanColumn.asBool (valueOf column row))
    rw [List.length_map] at hcount
    have hnull : nullCount.toNat ≤ valueCount.toNat := by omega
    refine ⟨UInt64.le_iff_toNat_le.2 hnull, rfl, by simp, by simp [Statistics.encodeBool], ?_⟩
    rw [length_withValidity, List.length_map, List.length_map, Bitmap.length_encode, bytesFor]
    split <;> omega
  · have hnone : Value.null.asU64 = none := rfl
    simp only [encodeU64Column, NumericColumn.collectValues, NumericColumn.countU64_ok, bind_ok,
      NumericColumn.validateColumn, failIf_ok, not_or, Bool.not_eq_false, Prod.exists,
      collectCells_accepted hnone, pure_ok] at h
    obtain ⟨_, ⟨-, himpl⟩, _, _, ⟨-, rfl, rfl⟩, _, _, henc, valueCount, hvc, nullCount, hnc, _, -,
      _, -, _, -, rfl⟩ := h
    have hcount := count_false_add (rows.map fun row => (valueOf column row).asU64)
    rw [List.length_map] at hcount
    obtain ⟨len, -, hlen, hmeta, -⟩ := NumericColumn.encodeValues_metadata henc
    have hle := NumericColumn.length_encodeValues_le henc
    have hnull : nullCount.toNat ≤ valueCount.toNat := by omega
    refine ⟨UInt64.le_iff_toNat_le.2 hnull, ?_, ?_, Statistics.length_encodeU64_le _ _, ?_⟩
    · show selectable .u64 column.codec = true
      revert himpl
      cases column.codec <;> simp [NumericColumn.implemented, selectable]
    · show _ ≤ 17
      rw [hmeta]
      revert hlen
      cases column.codec <;> simp [NumericColumn.expectedMetadataLen] <;> omega
    · rw [length_withValidity, List.length_map, List.length_map]
      split <;> omega
  · have hnone : Value.null.asStr = none := rfl
    simp only [encodeStringColumn, StringColumn.collectValues, StringColumn.countU64_ok, bind_ok,
      StringColumn.validateColumn, failIf_ok, not_or, Bool.not_eq_false, Prod.exists,
      collectCells_accepted hnone, pure_ok] at h
    obtain ⟨_, ⟨-, himpl⟩, _, _, ⟨-, rfl, rfl⟩, _, henc, _, -, valueCount, hvc, nullCount, hnc, _,
      -, _, -, _, -, rfl⟩ := h
    have hcount := count_false_add (rows.map fun row => (valueOf column row).asStr)
    rw [List.length_map] at hcount
    have hle := StringColumn.length_encodeValues_le henc
    have hnull : nullCount.toNat ≤ valueCount.toNat := by omega
    refine ⟨UInt64.le_iff_toNat_le.2 hnull, ?_, by simp, by simp [Statistics.encodeString], ?_⟩
    · show selectable .string column.codec = true
      revert himpl
      cases column.codec <;> simp [StringColumn.implemented, selectable]
    · rw [length_withValidity, List.length_map, List.length_map]
      rw [columnStrings_eq] at hle hcount
      split <;> omega

/-- The metadata of a column with a name that fits is measured. -/
theorem exists_record {column : ColumnSchema} {rows : List Map} {chunk : EncodedColumnChunk}
    (h : encodeExplicit column rows = .ok chunk) (hname : NameFits column) :
    ∃ record, encodeColumnMetadata chunk.metadata = .ok record ∧ record.length < 2 ^ 17 := by
  have hdesc := encodeExplicit_describes h
  have hsmall := encodeExplicit_small h
  obtain ⟨hcodec, hstatistics⟩ := And.intro hsmall.codecMetadata_le hsmall.statisticsMetadata_le
  obtain ⟨hne, hlen⟩ := hname
  have hvalid : chunk.metadata.Valid := by
    refine ⟨hdesc.name_eq ▸ hne, hsmall.null_le, fun hn => hdesc.required ?_, hsmall.selectable⟩
    rw [← hdesc.nullable_eq, hn]
  rw [← hdesc.name_eq] at hlen
  obtain ⟨record, hrecord, heq⟩ :=
    exists_encodeColumnMetadata hvalid hlen (by omega) (by omega)
  exact ⟨record, hrecord, by omega⟩

/-- A record holds only names that fit. -/
theorem nameFits_of_record {metadata : ColumnChunkMetadata} {record : List UInt8}
    (h : encodeColumnMetadata metadata = .ok record) :
    metadata.name ≠ "" ∧ (asBytes metadata.name).length < 2 ^ 16 := by
  have hvalid := encodeColumnMetadata_valid h
  simp only [encodeColumnMetadata, bind_ok, tryU16_ok] at h
  obtain ⟨_, -, nameLen, hlen, -⟩ := h
  exact ⟨hvalid.name_ne, hlen ▸ nameLen.toNat_lt⟩

/-- A candidate is measured, and the selection has a chunk from then on. -/
theorem tryCandidate_ok {column : ColumnSchema} {rows : List Map} (hname : NameFits column)
    (hmax : rows.length ≤ maxDecodedValues) (hmem : StringsFit column rows) (s : Selection)
    (codec : SchemaCodec) : ∃ s', tryCandidate column rows s codec = .ok s' ∧
      (s.best.isSome = true → s'.best.isSome = true) ∧
        ((∃ chunk, encodeExplicit { column with codec := codec } rows = .ok chunk) →
          s'.best.isSome = true) := by
  unfold tryCandidate
  cases henc : encodeExplicit { column with codec := codec } rows with
  | error e => exact ⟨_, rfl, id, fun ⟨chunk, h⟩ => by cases h⟩
  | ok chunk =>
      obtain ⟨record, hrecord, hlen⟩ := exists_record henc hname
      have hpayload := (encodeExplicit_small henc).payload_le
      have hsmall : 21 * maxDecodedValues + 11 < 2 ^ 62 := by decide
      have hfit : StringColumn.totalBytes (columnStrings column rows) < 2 ^ 62 := hmem
      have hsize : usizeAdd record.length chunk.payload.length =
          some (record.length + chunk.payload.length) := by
        refine usizeAdd_eq_some.2 ⟨?_, rfl⟩
        show _ < 2 ^ 64
        change chunk.payload.length ≤
          2 * StringColumn.totalBytes (columnStrings column rows) + 21 * rows.length +
            11 at hpayload
        omega
      simp only [hrecord, hsize, okOr, bind, Except.bind]
      refine ⟨_, rfl, ?_, fun _ => ?_⟩
      all_goals
        split
        · simp
        · rename_i hbest
          cases hs : s.best with
          | none => simp [hs] at hbest
          | some best => simp

/-- One of the candidates takes all values of its type. -/
theorem exists_candidate (valueType : SchemaValueType) :
    ∃ codec ∈ candidates valueType, codec ≠ .deltaBitpack ∧ codec ≠ .deltaVarintU64 ∧
      codec ≠ .dictionary := by
  cases valueType with
  | bool => exact ⟨.bitmap, by simp [candidates]⟩
  | u64 => exact ⟨.stored, by simp [candidates]⟩
  | string => exact ⟨.stored, by simp [candidates]⟩

theorem implemented_candidate {column : ColumnSchema} {codec : SchemaCodec}
    (h : codec ∈ candidates column.valueType) :
    implemented { column with codec := codec } = true ∧ codec ≠ .auto := by
  revert h
  rw [implemented]
  cases column.valueType <;> cases codec <;> simp [candidates]

/-- **A codec is found for rows of the column's type**, if the name of the column can be
measured. -/
theorem exists_selectAutoColumn {column : ColumnSchema} {rows : List Map}
    (hauto : column.codec = .auto) (hmax : rows.length ≤ maxDecodedValues)
    (hmem : StringsFit column rows) :
    (∃ chunk, selectAutoColumn column rows = .ok chunk) ↔ Encodable column rows := by
  constructor
  · rintro ⟨chunk, hchunk⟩
    obtain ⟨codec, hcodec, henc, record, hrecord⟩ := selectAutoColumn_ok hchunk
    obtain ⟨himpl, hne⟩ := implemented_candidate hcodec
    have hencodable := (exists_encodeExplicit himpl hne hmax hmem).1 ⟨chunk, henc⟩
    have hname := nameFits_of_record hrecord
    rw [(encodeExplicit_describes henc).name_eq] at hname
    exact ⟨hencodable.hasType, by simp [hauto], by simp [hauto], fun _ => hname⟩
  · intro h
    obtain ⟨codec, hcodec, hbitpack, hvarint, hdictionary⟩ := exists_candidate column.valueType
    obtain ⟨himpl, hne⟩ := implemented_candidate hcodec
    have hencodable : Encodable { column with codec := codec } rows :=
      ⟨h.hasType, by simp [hbitpack, hvarint], by simp [hdictionary], fun h => absurd h hne⟩
    have henc := (exists_encodeExplicit himpl hne hmax hmem).2 hencodable
    -- from that candidate on, there is a best chunk
    have hfold : ∃ s, (candidates column.valueType).foldlM (tryCandidate column rows)
        ⟨none, none⟩ = .ok s ∧ (codec ∈ candidates column.valueType → s.best.isSome = true) := by
      refine exists_foldlM (P := fun done (s : Selection) => codec ∈ done → s.best.isSome = true)
        ?_ (by simp)
      intro done codec' rest s _ ih
      obtain ⟨s', hs', hkeep, hnew⟩ := tryCandidate_ok (h.nameFits hauto) hmax hmem s codec'
      refine ⟨s', hs', fun hmem => ?_⟩
      rcases List.mem_append.1 hmem with hdone | hlast
      · exact hkeep (ih hdone)
      · rw [List.mem_singleton.1 hlast] at henc
        exact hnew henc
    obtain ⟨s, hs, hbest⟩ := hfold
    obtain ⟨best, hsome⟩ := Option.isSome_iff_exists.1 (hbest hcodec)
    simp only [selectAutoColumn, bind_ok, okOr_ok]
    exact ⟨best.2, s, hs, by rw [hsome]; rfl⟩

/-- **Exactly these rows are encoded.** -/
theorem exists_encodeColumn {column : ColumnSchema} {rows : List Map}
    (himpl : implemented column = true) (hmax : rows.length ≤ maxDecodedValues)
    (hmem : StringsFit column rows) :
    (∃ chunk, encodeColumn column rows = .ok chunk) ↔ Encodable column rows := by
  unfold encodeColumn
  split
  · rename_i hauto
    exact exists_selectAutoColumn hauto hmax hmem
  · rename_i hauto
    exact exists_encodeExplicit himpl hauto hmax hmem

/-! ### What comes back -/

/-- The cells of entries are the values they were made of. -/
theorem map_extract {α : Type} (extract : Value → Option α) {inject : α → Value}
    (hnull : extract .null = none) (hinject : ∀ v, extract (inject v) = some v)
    {cells : List (Option α)} {values : List Value}
    (h : cells.map (fun cell => (cell.map inject).getD .null) = values) :
    cells = values.map extract := by
  rw [← h, List.map_map]
  symm
  refine (List.map_congr_left fun cell _ => ?_).trans (List.map_id cells)
  cases cell with
  | none => exact hnull
  | some v => exact hinject v

/-- Values are decoded to a column of their type. -/
theorem eq_ofRows {metadata : ColumnChunkMetadata} {payload : List UInt8}
    {decoded : DecodedColumn} {column : ColumnSchema} {rows : List Map}
    (hdec : decodeValues metadata payload = .ok decoded)
    (htype : metadata.valueType = column.valueType) (hholds : decoded.Holds column rows) :
    decoded = DecodedColumn.ofRows column rows := by
  rw [DecodedColumn.ofRows]
  rw [decodeValues, htype] at hdec
  cases hcolumn : column.valueType with
  | bool =>
      simp only [hcolumn, bind_ok, pure_ok] at hdec
      obtain ⟨cells, -, rfl⟩ := hdec
      have hcells := map_extract BooleanColumn.asBool rfl (fun _ => rfl) hholds
      rw [hcells, List.map_map]
      rfl
  | u64 =>
      simp only [hcolumn, bind_ok, pure_ok] at hdec
      obtain ⟨cells, -, rfl⟩ := hdec
      have hcells := map_extract Value.asU64 rfl (fun _ => rfl) hholds
      rw [hcells, List.map_map]
      rfl
  | string =>
      simp only [hcolumn, bind_ok, pure_ok] at hdec
      obtain ⟨cells, -, rfl⟩ := hdec
      have hcells := map_extract Value.asStr rfl (fun _ => rfl) hholds
      rw [hcells, List.map_map]
      rfl

theorem reduceOption_eq_nil {α : Type} {cells : List (Option α)}
    (h : cells.all Option.isNone = true) : cells.reduceOption = [] := by
  rw [List.reduceOption, List.filterMap_eq_nil_iff]
  intro cell hcell
  simpa using List.all_eq_true.1 h cell hcell

/-- Statistics that pass the second check are those of the values. -/
theorem decode_statistics {metadata : ColumnChunkMetadata} {decoded : DecodedColumn}
    (h : validateDecodedStatistics metadata decoded = .ok ()) :
    Statistics.decode metadata.statisticsMetadata = .ok decoded.statistics := by
  simp only [validateDecodedStatistics, bind_ok, failIf_ok, Bool.not_eq_false] at h
  obtain ⟨statistics, hstatistics, hagree⟩ := h
  rw [hstatistics]
  congr 1
  cases decoded with
  | bool values =>
      cases statistics with
      | bool trueCount => rw [DecodedColumn.statistics, eq_of_beq hagree]
      | none | u64 | string => cases hagree
  | string values =>
      cases statistics with
      | string distinctCount => rw [DecodedColumn.statistics, eq_of_beq hagree]
      | none | u64 | bool => cases hagree
  | u64 values =>
      cases statistics with
      | none => simp [DecodedColumn.statistics, reduceOption_eq_nil hagree]
      | u64 min max =>
          obtain ⟨hmin, hmax⟩ := Bool.and_eq_true_iff.1 hagree
          rw [DecodedColumn.statistics, eq_of_beq hmin, eq_of_beq hmax]
      | bool | string => cases hagree

/-- What a decoder finds in the metadata of rows. -/
structure DescribesRows (metadata : ColumnChunkMetadata) (column : ColumnSchema)
    (rows : List Map) : Prop where
  valueCount_eq : metadata.valueCount.toNat = rows.length
  nullCount_eq : metadata.nullCount.toNat = (rows.map (valueOf column)).countP Value.isNull
  statistics_eq : Statistics.decode metadata.statisticsMetadata =
    .ok (DecodedColumn.ofRows column rows).statistics

/-- **What was encoded decodes to its rows**, and its metadata describes them. -/
theorem decodeColumn_rows {column : ColumnSchema} {rows : List Map} {chunk : EncodedColumnChunk}
    (h : encodeColumn column rows = .ok chunk) (hmax : rows.length ≤ maxDecodedValues)
    (hrle : chunk.metadata.codec = .rle →
      ((columnStrings column rows).flatMap Strings.lenPrefixed).length ≤ maxDecodedBytes) :
    decodeColumn chunk.metadata chunk.payload = .ok (DecodedColumn.ofRows column rows) ∧
      DescribesRows chunk.metadata column rows := by
  obtain ⟨codec, -, henc⟩ := encodeColumn_explicit h
  have hdesc := encodeExplicit_describes henc
  have hfit : Fits chunk.payload := by
    show chunk.payload.length < 2 ^ 64
    rw [← hdesc.compressedSize_eq]
    exact chunk.metadata.compressedSize.toNat_lt
  obtain ⟨decoded, hdec, hholds⟩ := decodeColumn_encodeColumn h hmax hfit hrle
  have hagrees := decodeColumn_ok hdec
  have hparts := hdec
  simp only [decodeColumn, bind_ok, pure_ok] at hparts
  obtain ⟨_, -, decoded', hvalues, _, hstatistics, heq'⟩ := hparts
  rw [heq'] at hvalues hstatistics
  have heq := eq_ofRows hvalues hdesc.valueType_eq hholds
  have hnull := DecodedColumn.countP_isNull decoded
  rw [hholds] at hnull
  exact ⟨heq ▸ hdec, hdesc.valueCount_eq, by rw [hnull, hagrees.nullCount_eq],
    heq ▸ decode_statistics hstatistics⟩

/-- **A column codec gives rows back**: exactly the encodable rows are encoded, and what was
encoded decodes to them. -/
theorem encodeColumn_roundTrip {column : ColumnSchema} {rows : List Map}
    (himpl : implemented column = true) (hmax : rows.length ≤ maxDecodedValues)
    (hmem : StringsFit column rows) :
    ((∃ chunk, encodeColumn column rows = .ok chunk) ↔ Encodable column rows) ∧
      ∀ chunk, encodeColumn column rows = .ok chunk →
        (chunk.metadata.codec = .rle →
          ((columnStrings column rows).flatMap Strings.lenPrefixed).length ≤ maxDecodedBytes) →
        decodeColumn chunk.metadata chunk.payload = .ok (DecodedColumn.ofRows column rows) ∧
          DescribesRows chunk.metadata column rows :=
  ⟨exists_encodeColumn himpl hmax hmem, fun _ hchunk hrle => decodeColumn_rows hchunk hmax hrle⟩

/-- A nullable column of numbers that increase, and rows for it. -/
def deltaColumn : ColumnSchema := ⟨"id", .u64, .deltaBitpack, true⟩

def deltaRows : List Map := [[("id", .number (.posInt 5))], [], [("id", .number (.posInt 9))]]

theorem encodeColumn_roundTrip_delta :
    ∃ chunk, encodeColumn deltaColumn deltaRows = .ok chunk ∧
      decodeColumn chunk.metadata chunk.payload = .ok (.u64 [some 5, none, some 9]) := by
  have hmax : deltaRows.length ≤ maxDecodedValues := by decide
  have hmem : StringsFit deltaColumn deltaRows := by
    show 0 < 2 ^ 62
    decide
  obtain ⟨hencode, hdecode⟩ := encodeColumn_roundTrip rfl hmax hmem
  have hrows : Encodable deltaColumn deltaRows := by
    refine ⟨?_, fun _ => by decide, fun h => (by cases h), fun h => (by cases h)⟩
    intro row hrow
    simp only [deltaRows, List.mem_cons, List.not_mem_nil, or_false] at hrow
    rcases hrow with rfl | rfl | rfl
    · exact Or.inr ⟨5, rfl⟩
    · exact Or.inl ⟨rfl, rfl⟩
    · exact Or.inr ⟨9, rfl⟩
  obtain ⟨chunk, hchunk⟩ := hencode.2 hrows
  refine ⟨chunk, hchunk, (hdecode chunk hchunk fun _ => ?_).1⟩
  exact Nat.zero_le _

/-! ### A name that no record holds -/

/-- A column of numbers that selects its codec. -/
def autoColumn (name : String) : ColumnSchema := ⟨name, .u64, .auto, false⟩

theorem validateImplementedSchema_autoColumn {name : String} (hname : name ≠ "") :
    validateImplementedSchema ⟨[autoColumn name]⟩ = .ok [autoColumn name] := by
  have hcolumns : (⟨[autoColumn name]⟩ : Schema).supportedColumnsV3 = .ok [autoColumn name] := by
    refine Schema.supportedColumnsV3_ok.2 ⟨rfl, by simp, ?_, by simp, ?_⟩
    · intro column hcolumn
      rw [List.mem_singleton.1 hcolumn]
      exact hname
    · intro column hcolumn
      rw [List.mem_singleton.1 hcolumn]
      rfl
  simp only [validateImplementedSchema, hcolumns, bind_ok, Except.ok.injEq, exists_eq_left',
    failIf_ok, pure_ok]
  exact ⟨(), by simp [implemented, autoColumn], trivial⟩

/-- No codec is selected under a name that a record cannot hold. -/
theorem not_encodeColumn_autoColumn {name : String} (hname : 2 ^ 16 ≤ (asBytes name).length)
    {rows : List Map} (hmax : rows.length ≤ maxDecodedValues)
    (hmem : StringsFit (autoColumn name) rows) :
    ¬∃ chunk, encodeColumn (autoColumn name) rows = .ok chunk := by
  rw [exists_encodeColumn rfl hmax hmem]
  intro h
  exact absurd (h.nameFits rfl).2 (Nat.not_lt.2 hname)

/-- A name of 65536 bytes. -/
def longName : String := String.join (List.replicate 65536 "a")

theorem length_longName : (asBytes longName).length = 65536 := by
  have hone : asBytes "a" = [97] := rfl
  have hall : ∀ n : ℕ, ((List.replicate n "a").flatMap asBytes).length = n := by
    intro n
    induction n with
    | zero => rfl
    | succ n ih => rw [List.replicate_succ, List.flatMap_cons, List.length_append, ih, hone,
        List.length_singleton, Nat.add_comm]
  rw [longName, asBytes_join, hall]

/-- The schema is accepted and the row has a number, but the metadata of a candidate cannot be
measured. -/
theorem encodeColumn_longName :
    validateImplementedSchema ⟨[autoColumn longName]⟩ = .ok [autoColumn longName] ∧
      HasType (autoColumn longName)
        (valueOf (autoColumn longName) [(longName, .number (.posInt 1))]) ∧
      ¬∃ chunk, encodeColumn (autoColumn longName) [[(longName, .number (.posInt 1))]] =
        .ok chunk := by
  have hlen := length_longName
  have hvalue : valueOf (autoColumn longName) [(longName, .number (.posInt 1))] =
      .number (.posInt 1) := by
    generalize longName = name
    simp [valueOf, Map.get, autoColumn]
  refine ⟨validateImplementedSchema_autoColumn fun hnil => ?_, ?_, ?_⟩
  · rw [hnil] at hlen
    cases hlen
  · rw [hvalue]
    exact Or.inr ⟨1, rfl⟩
  · refine not_encodeColumn_autoColumn hlen.ge (by simp [maxDecodedValues]) ?_
    generalize longName = name
    show StringColumn.totalBytes (columnStrings _ _) < _
    simp [columnStrings, Map.get, autoColumn, Value.asStr, StringColumn.totalBytes]

end CompactCore.Io.V3
