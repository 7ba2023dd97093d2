/-
**`CMP3` `u64` columns.**

A numeric payload is the validity bitmap of a nullable column and the encoded values.  The codec
metadata stores every parameter that decoding needs: the bit width and the base where a codec has
them, and always the number of values.

Main definitions:

* `CompactCore.Codecs.V3.encodeU64Column`, `CompactCore.Codecs.V3.decodeU64Column` — the two
  directions.

Main results:

* `CompactCore.Codecs.V3.NumericColumn.decodeValues_encodeValues` — every codec inverts itself;
* `CompactCore.Codecs.V3.decodeU64Column_encode` — **an encoded column decodes to the cells of its
  rows**;
* `CompactCore.Codecs.V3.decodeU64Column_counts` — a decoded column has the counts of its metadata.
-/

import CompactCore.Codecs.V3.Nullable
import CompactCore.Primitives.Bitpack
import CompactCore.Primitives.Delta
import CompactCore.Statistics

set_option relaxedAutoImplicit false
set_option autoImplicit false

namespace CompactCore.Codecs.V3

open Wire CompactError Format.V3
open Io (valueOf)

namespace NumericColumn

def texts : CellTexts where
  mustNotBeNull := "required u64 column must not be null"
  missing := "jsonl row missing required u64 column"
  wrongType := "jsonl u64 column must be an unsigned integer or null"

def implemented : SchemaCodec → Bool
  | .bitpack | .deltaBitpack | .deltaVarintU64 | .stored => true
  | _ => false

def validateColumn (column : ColumnSchema) : Result Unit :=
  failIf (column.valueType ≠ .u64 ∨ implemented column.codec = false)
    (unsupported "cmp3 numeric encoder requires implemented u64 codec")

def collectValues (column : ColumnSchema) (rows : List Map) : Result (List Bool × List UInt64) :=
  collectCells texts Value.asU64 column rows

def countU64 (value : ℕ) : Result UInt64 := tryU64 value "cmp3 numeric size is too large"

/-- `u64::BITS - value.leading_zeros()`. -/
def requiredWidth (value : UInt64) : UInt8 :=
  if value = 0 then 0 else UInt8.ofNat (value.toNat.log2 + 1)

/-! ### Encoding values -/

def encodeBitpack (values : List UInt64) : Result (List UInt8 × List UInt8) := do
  let width := requiredWidth (values.max?.getD 0)
  let count ← countU64 values.length
  let payload ← Bitpack.encodeU64 values width
  return ([width] ++ le64 count, payload)

def encodeDeltaBitpack (values : List UInt64) : Result (List UInt8 × List UInt8) := do
  let base := values.head?.getD 0
  let deltas ← Delta.encodeWindows "delta bitpack requires monotonic u64 values" base values
  let width := requiredWidth (deltas.max?.getD 0)
  let count ← countU64 values.length
  let payload ← Bitpack.encodeU64 deltas width
  return ([width] ++ (le64 base ++ le64 count), payload)

/-- The codec metadata and the encoded values. -/
def encodeValues (codec : SchemaCodec) (values : List UInt64) :
    Result (List UInt8 × List UInt8) :=
  match codec with
  | .bitpack => encodeBitpack values
  | .deltaBitpack => encodeDeltaBitpack values
  | .deltaVarintU64 => do
      let count ← countU64 values.length
      let payload ← DeltaVarint.encodeU64 values
      return (le64 count, payload)
  | .stored => do
      let count ← countU64 values.length
      return (le64 count, values.flatMap le64)
  | _ => .error (unsupported "cmp3 numeric encoder requires implemented u64 codec")

/-! ### Decoding values -/

def decodeDeltaBitpack (codecMetadata payload : List UInt8) (count : ℕ) :
    Result (List UInt64) := do
  let width := codecMetadata.getD 0 0
  let base := u64OfLe ((codecMetadata.drop 1).take 8)
  let deltas ← Bitpack.decodeU64 payload width count
  Delta.decodeFrom "delta bitpack decode overflow" base deltas

/-- `chunks_exact(8)`, each chunk a word. -/
def words : ℕ → List UInt8 → List UInt64
  | 0, _ => []
  | count + 1, bytes => u64OfLe (bytes.take 8) :: words count (bytes.drop 8)

def decodeStored (payload : List UInt8) (count : ℕ) : Result (List UInt64) := do
  let expected ← okOr (invalidInput "cmp3 stored length overflow") (usizeMul count 8)
  failIf (payload.length ≠ expected) (invalidInput "cmp3 stored payload length mismatch")
  return words (payload.length / 8) payload

def decodeValues (codec : SchemaCodec) (codecMetadata valuesPayload : List UInt8)
    (nonNullCount : ℕ) : Result (List UInt64) :=
  match codec with
  | .bitpack => Bitpack.decodeU64 valuesPayload (codecMetadata.getD 0 0) nonNullCount
  | .deltaBitpack => decodeDeltaBitpack codecMetadata valuesPayload nonNullCount
  | .deltaVarintU64 => do
      let values ← DeltaVarint.decodeU64 valuesPayload
      failIf (values.length ≠ nonNullCount) (invalidInput "cmp3 numeric decoded count mismatch")
      return values
  | .stored => decodeStored valuesPayload nonNullCount
  | _ => .error (invalidInput "cmp3 numeric metadata has incompatible codec")

/-- The length of a codec's metadata. -/
def expectedMetadataLen : SchemaCodec → Result ℕ
  | .bitpack => .ok (1 + 8)
  | .deltaBitpack => .ok (1 + 8 + 8)
  | .deltaVarintU64 | .stored => .ok 8
  | _ => .error (invalidInput "cmp3 numeric metadata has incompatible codec")

def validateMetadata (metadata : ColumnChunkMetadata) (payload : List UInt8) : Result Unit := do
  failIf (metadata.valueType ≠ .u64) (invalidInput "cmp3 numeric metadata has incompatible type")
  failIf (metadata.valueCount < metadata.nullCount ∨
      metadata.nullable = false ∧ metadata.nullCount ≠ 0)
    (invalidInput "cmp3 numeric null count is invalid")
  let expectedMetadataLen ← expectedMetadataLen metadata.codec
  failIf (metadata.codecMetadata.length ≠ expectedMetadataLen)
    (invalidInput "cmp3 numeric codec metadata length mismatch")
  failIf ((metadata.codec = .bitpack ∨ metadata.codec = .deltaBitpack) ∧
      64 < metadata.codecMetadata.getD 0 0)
    (invalidInput "bit width must be <= 64")
  let declaredCount := u64OfLe (metadata.codecMetadata.drop (expectedMetadataLen - 8))
  failIf (declaredCount ≠ metadata.valueCount - metadata.nullCount)
    (invalidInput "cmp3 numeric codec metadata count mismatch")
  let payloadLen ← countU64 payload.length
  failIf (metadata.compressedSize ≠ payloadLen)
    (invalidInput "cmp3 numeric payload size does not match metadata")

end NumericColumn

open NumericColumn in
def encodeU64Column (column : ColumnSchema) (rows : List Map) : Result EncodedColumnChunk := do
  validateColumn column
  let (validity, values) ← collectValues column rows
  let nullCount := validity.count false
  let (codecMetadata, encodedValues) ← encodeValues column.codec values
  let payload := withValidity column.nullable validity encodedValues
  let valueCount ← countU64 rows.length
  let nullCount ← countU64 nullCount
  let rawCount ← countU64 values.length
  let rawSize ← okOr (invalidInput "cmp3 numeric raw size overflow") (checkedMul rawCount 8)
  let compressedSize ← countU64 payload.length
  return {
    metadata := {
      name := column.name
      valueType := .u64
      nullable := column.nullable
      codec := column.codec
      valueCount := valueCount
      nullCount := nullCount
      rawSize := rawSize
      compressedSize := compressedSize
      codecMetadata := codecMetadata
      statisticsMetadata := Statistics.encodeU64 values.min? values.max? }
    payload := payload }

open NumericColumn in
def decodeU64Column (metadata : ColumnChunkMetadata) (payload : List UInt8) :
    Result (List (Option UInt64)) := do
  validateMetadata metadata payload
  let valueCount ← tryUsize metadata.valueCount "cmp3 numeric value count is too large"
  failIf (maxDecodedValues < valueCount)
    (invalidInput "cmp3 numeric value count exceeds configured limit")
  let nullCount ← tryUsize metadata.nullCount "cmp3 numeric null count is too large"
  failIf (valueCount < nullCount) (invalidInput "cmp3 numeric count underflow")
  let nonNullCount := valueCount - nullCount
  let (validityPayload, valuesPayload) ←
    splitValidity "cmp3 numeric validity bitmap is truncated" metadata.nullable valueCount payload
  let validity ← decodeValidity metadata.nullable valueCount nonNullCount validityPayload
  let values ← decodeValues metadata.codec metadata.codecMetadata valuesPayload nonNullCount
  let (decoded, _) ← restoreNulls "cmp3 numeric payload is missing values" validity values
  return decoded

/-! ### Counts -/

theorem decodeU64Column_limit {metadata : ColumnChunkMetadata} {payload : List UInt8}
    {cells : List (Option UInt64)} (h : decodeU64Column metadata payload = .ok cells) :
    metadata.valueCount.toNat ≤ maxDecodedValues := by
  simp only [decodeU64Column, bind_ok, tryUsize_eq, Except.ok.injEq, failIf_ok, Nat.not_lt,
    exists_eq_left'] at h
  obtain ⟨_, -, _, hle, -⟩ := h
  exact hle

/-- A decoded column has the counts of its metadata. -/
theorem decodeU64Column_counts {metadata : ColumnChunkMetadata} {payload : List UInt8}
    {cells : List (Option UInt64)} (h : decodeU64Column metadata payload = .ok cells) :
    cells.length = metadata.valueCount.toNat ∧
      (cells.map Option.isSome).count false = metadata.nullCount.toNat := by
  simp only [decodeU64Column, bind_ok, tryUsize_eq, Except.ok.injEq, failIf_ok, Nat.not_lt,
    Prod.exists, pure_ok, exists_eq_left'] at h
  obtain ⟨_, -, _, -, _, hle, _, _, -, _, hvalidity, _, -, _, _, hrestore, rfl⟩ := h
  obtain ⟨hlen, hnull⟩ := restored_counts hvalidity hrestore
  exact ⟨hlen, by omega⟩

/-! ### Every codec inverts itself -/

namespace NumericColumn

theorem countU64_ok {n : ℕ} {v : UInt64} : countU64 n = .ok v ↔ v.toNat = n := tryU64_ok

theorem words_flatMap (values : List UInt64) :
    words values.length (values.flatMap le64) = values := by
  induction values with
  | nil => rfl
  | cons value values ih =>
      rw [List.flatMap_cons, List.length_cons, words, List.take_left' (length_le64 value),
        List.drop_left' (length_le64 value), u64OfLe_le64, ih]

theorem length_flatMap_le64 (values : List UInt64) :
    (values.flatMap le64).length = values.length * 8 := by
  induction values with
  | nil => rfl
  | cons value values ih =>
      rw [List.flatMap_cons, List.length_append, length_le64, ih, List.length_cons]
      omega

theorem bitpack_width_le {values : List UInt64} {width : UInt8} {payload : List UInt8}
    (h : Bitpack.encodeU64 values width = .ok payload) : width.toNat ≤ 64 :=
  (Bitpack.encodeU64_ok.1 h).1

/-- The codec metadata ends in the number of values, and its width, if it has one, is valid. -/
theorem encodeValues_metadata {codec : SchemaCodec} {values : List UInt64}
    {codecMetadata payload : List UInt8}
    (h : encodeValues codec values = .ok (codecMetadata, payload)) :
    ∃ len count, expectedMetadataLen codec = .ok len ∧ codecMetadata.length = len ∧
      count.toNat = values.length ∧ u64OfLe (codecMetadata.drop (len - 8)) = count ∧
      ((codec = .bitpack ∨ codec = .deltaBitpack) → ¬64 < codecMetadata.getD 0 0) := by
  unfold encodeValues at h
  split at h
  · simp only [encodeBitpack, bind_ok, countU64_ok, pure_ok, Prod.mk.injEq] at h
    obtain ⟨count, hcount, payload, hpayload, rfl, rfl⟩ := h
    refine ⟨9, count, rfl, by simp, hcount, ?_, fun _ => ?_⟩
    · exact u64OfLe_le64 count
    · have hwidth := bitpack_width_le hpayload
      rw [UInt8.lt_iff_toNat_lt, Nat.not_lt]
      exact hwidth
  · simp only [encodeDeltaBitpack, bind_ok, countU64_ok, pure_ok, Prod.mk.injEq] at h
    obtain ⟨deltas, -, count, hcount, payload, hpayload, rfl, rfl⟩ := h
    refine ⟨17, count, rfl, by simp, hcount, ?_, fun _ => ?_⟩
    · show u64OfLe ((le64 _ ++ le64 count).drop 8) = count
      rw [List.drop_left' (length_le64 _), u64OfLe_le64]
    · have hwidth := bitpack_width_le hpayload
      rw [UInt8.lt_iff_toNat_lt, Nat.not_lt]
      exact hwidth
  · simp only [bind_ok, countU64_ok, pure_ok, Prod.mk.injEq] at h
    obtain ⟨count, hcount, payload, -, rfl, rfl⟩ := h
    exact ⟨8, count, rfl, by simp, hcount, u64OfLe_le64 count, by simp⟩
  · simp only [bind_ok, countU64_ok, pure_ok, Prod.mk.injEq] at h
    obtain ⟨count, hcount, rfl, rfl⟩ := h
    exact ⟨8, count, rfl, by simp, hcount, u64OfLe_le64 count, by simp⟩
  · cases h

/-- **Every codec inverts itself.** -/
theorem decodeValues_encodeValues {codec : SchemaCodec} {values : List UInt64}
    {codecMetadata payload : List UInt8}
    (h : encodeValues codec values = .ok (codecMetadata, payload))
    (hmax : values.length ≤ maxDecodedValues) :
    decodeValues codec codecMetadata payload values.length = .ok values := by
  unfold encodeValues at h
  split at h
  · simp only [encodeBitpack, bind_ok, pure_ok, Prod.mk.injEq] at h
    obtain ⟨count, -, payload, hpayload, rfl, rfl⟩ := h
    exact Bitpack.decodeU64_ok.2 ⟨hmax, rfl, hpayload⟩
  · simp only [encodeDeltaBitpack, bind_ok, pure_ok, Prod.mk.injEq] at h
    obtain ⟨deltas, hdeltas, count, -, payload, hpayload, rfl, rfl⟩ := h
    have hbase : u64OfLe ((([requiredWidth (deltas.max?.getD 0)] ++
        (le64 (values.head?.getD 0) ++ le64 count)).drop 1).take 8) = values.head?.getD 0 := by
      show u64OfLe ((le64 _ ++ le64 count).take 8) = _
      rw [List.take_left' (length_le64 _), u64OfLe_le64]
    simp only [decodeValues, decodeDeltaBitpack, bind_ok, hbase]
    refine ⟨deltas, Bitpack.decodeU64_ok.2 ⟨hmax, Delta.length_encodeWindows hdeltas, hpayload⟩, ?_⟩
    exact Delta.decodeFrom_ok.2 hdeltas
  · simp only [bind_ok, pure_ok, Prod.mk.injEq] at h
    obtain ⟨count, -, payload, hpayload, rfl, rfl⟩ := h
    simp only [decodeValues, bind_ok, failIf_ok, not_not, pure_ok]
    exact ⟨values, DeltaVarint.decodeU64_ok.2 hpayload, (), rfl, rfl⟩
  · simp only [bind_ok, pure_ok, Prod.mk.injEq] at h
    obtain ⟨count, -, rfl, rfl⟩ := h
    have hlen := length_flatMap_le64 values
    have hword : values.length * 8 < wordSize := by
      have : maxDecodedValues * 8 < wordSize := by decide
      omega
    simp only [decodeValues, decodeStored, bind_ok, okOr_ok, usizeMul_eq_some, failIf_ok, not_not,
      pure_ok]
    refine ⟨_, ⟨hword, rfl⟩, (), hlen, ?_⟩
    rw [hlen, Nat.mul_div_cancel _ (by omega), words_flatMap]
  · cases h

theorem validateMetadata_ok {metadata : ColumnChunkMetadata} {payload : List UInt8}
    {codec : SchemaCodec} {values : List UInt64} {codecMetadata encoded : List UInt8}
    (henc : encodeValues codec values = .ok (codecMetadata, encoded))
    (htype : metadata.valueType = .u64) (hcodec : metadata.codec = codec)
    (hmeta : metadata.codecMetadata = codecMetadata)
    (hcounts : metadata.nullCount.toNat + values.length = metadata.valueCount.toNat)
    (hreq : metadata.nullable = false → metadata.nullCount = 0)
    (hsize : metadata.compressedSize.toNat = payload.length) :
    validateMetadata metadata payload = .ok () := by
  obtain ⟨len, count, hlen, hmlen, hcount, hdecl, hwidth⟩ := encodeValues_metadata henc
  have hle : metadata.nullCount ≤ metadata.valueCount := by
    rw [UInt64.le_iff_toNat_le]
    omega
  simp only [validateMetadata, bind_ok, failIf_ok, hcodec, hmeta, hlen, countU64_ok, not_or,
    not_and, not_not, UInt64.not_lt]
  refine ⟨(), htype, (), ⟨hle, fun h => hreq h⟩, len, rfl, (), hmlen, (), hwidth, (), ?_,
    metadata.compressedSize, hsize, rfl⟩
  rw [hdecl, ← UInt64.toNat_inj, UInt64.toNat_sub_of_le _ _ hle]
  omega

/-! ### When a codec takes the values -/

theorem exists_countU64 {n : ℕ} (h : n < 2 ^ 64) : ∃ v, countU64 n = .ok v :=
  ⟨UInt64.ofNat n, countU64_ok.2 (toNat_ofNat h)⟩

theorem toNat_requiredWidth (value : UInt64) :
    (requiredWidth value).toNat ≤ 64 ∧ value.toNat < 2 ^ (requiredWidth value).toNat := by
  rw [requiredWidth]
  split
  · rename_i hzero
    rw [hzero]
    exact ⟨Nat.zero_le _, Nat.one_pos⟩
  · rename_i hne
    have hpos : value.toNat ≠ 0 := fun h => hne (UInt64.toNat_inj.1 h)
    have hlog : value.toNat.log2 < 64 := (Nat.log2_lt hpos).2 value.toNat_lt
    rw [UInt8.toNat_ofNat', Nat.mod_eq_of_lt (by omega)]
    exact ⟨hlog, Nat.lt_log2_self⟩

/-- The width of the largest value holds them all. -/
theorem lt_requiredWidth_max {values : List UInt64} {value : UInt64} (h : value ∈ values) :
    value.toNat < 2 ^ (requiredWidth (values.max?.getD 0)).toNat := by
  obtain ⟨max, hmax⟩ := Option.ne_none_iff_exists'.1
    (mt List.max?_eq_none_iff.1 (List.ne_nil_of_mem h))
  rw [hmax, Option.getD_some]
  have hle := UInt64.le_iff_toNat_le.1 ((List.max?_eq_some_iff.1 hmax).2 value h)
  exact lt_of_le_of_lt hle (toNat_requiredWidth max).2

theorem exists_encodeU64 {values : List UInt64} (hmax : values.length ≤ maxDecodedValues) :
    ∃ payload, Bitpack.encodeU64 values (requiredWidth (values.max?.getD 0)) = .ok payload := by
  obtain ⟨hwidth, -⟩ := toNat_requiredWidth (values.max?.getD 0)
  have hmul := Nat.mul_le_mul hmax hwidth
  exact ⟨_, Bitpack.encodeU64_ok.2 ⟨hwidth, lt_of_le_of_lt hmul (by decide),
    fun value hvalue => lt_requiredWidth_max hvalue, rfl⟩⟩

/-- The codecs that store differences. -/
def IsDelta (codec : SchemaCodec) : Prop := codec = .deltaBitpack ∨ codec = .deltaVarintU64

/-- **A codec takes any values**, if they never decrease where it stores differences. -/
theorem exists_encodeValues {codec : SchemaCodec} {values : List UInt64}
    (himpl : implemented codec = true) (hmax : values.length ≤ maxDecodedValues) :
    (∃ codecMetadata payload, encodeValues codec values = .ok (codecMetadata, payload)) ↔
      (IsDelta codec → values.IsChain (· ≤ ·)) := by
  have hword : values.length < 2 ^ 64 := lt_of_le_of_lt hmax (by decide)
  obtain ⟨count, hcount⟩ := exists_countU64 hword
  cases codec with
  | bitpack =>
      obtain ⟨payload, hpayload⟩ := exists_encodeU64 hmax
      simp [encodeValues, encodeBitpack, IsDelta, hcount, hpayload]
  | stored => simp [encodeValues, IsDelta, hcount]
  | deltaBitpack =>
      have hchain : values.IsChain (· ≤ ·) ↔ (values.head?.getD 0 :: values).IsChain (· ≤ ·) := by
        cases values <;> simp
      rw [IsDelta, forall_prop_of_true (Or.inl rfl), hchain,
        ← @Delta.exists_encodeWindows "delta bitpack requires monotonic u64 values"]
      constructor
      · rintro ⟨codecMetadata, payload, h⟩
        simp only [encodeValues, encodeDeltaBitpack, bind_ok] at h
        obtain ⟨deltas, hdeltas, -⟩ := h
        exact ⟨deltas, hdeltas⟩
      · rintro ⟨deltas, hdeltas⟩
        have hlen : deltas.length ≤ maxDecodedValues := by
          rwa [Delta.length_encodeWindows hdeltas]
        obtain ⟨payload, hpayload⟩ := exists_encodeU64 hlen
        simp [encodeValues, encodeDeltaBitpack, hdeltas, hcount, hpayload]
  | deltaVarintU64 =>
      rw [IsDelta, forall_prop_of_true (Or.inr rfl), ← Delta.exists_encodeDeltaU64]
      simp [encodeValues, DeltaVarint.encodeU64, hcount]
  | auto | bitmap | dictionary | prefixCodec | rle => cases himpl

/-- Ten bytes are enough for a value. -/
theorem length_encodeValues_le {codec : SchemaCodec} {values : List UInt64}
    {codecMetadata payload : List UInt8}
    (h : encodeValues codec values = .ok (codecMetadata, payload)) :
    payload.length ≤ 10 * values.length := by
  have hpacked : ∀ {values : List UInt64} {width : UInt8} {payload : List UInt8},
      Bitpack.encodeU64 values width = .ok payload → payload.length ≤ 10 * values.length := by
    intro values width payload h
    obtain ⟨hwidth, -, -, rfl⟩ := Bitpack.encodeU64_ok.1 h
    have hmul := Nat.mul_le_mul_left values.length hwidth
    rw [length_packBits, bytesFor, Bitpack.length_allBits]
    omega
  unfold encodeValues at h
  split at h
  · simp only [encodeBitpack, bind_ok, pure_ok, Prod.mk.injEq] at h
    obtain ⟨-, -, payload, hpayload, rfl, rfl⟩ := h
    exact hpacked hpayload
  · simp only [encodeDeltaBitpack, bind_ok, pure_ok, Prod.mk.injEq] at h
    obtain ⟨deltas, hdeltas, -, -, payload, hpayload, rfl, rfl⟩ := h
    rw [← Delta.length_encodeWindows hdeltas]
    exact hpacked hpayload
  · simp only [DeltaVarint.encodeU64, bind_ok, pure_ok, Prod.mk.injEq] at h
    obtain ⟨-, -, _, ⟨deltas, hdeltas, rfl⟩, rfl, rfl⟩ := h
    rw [← Delta.length_encodeDeltaU64 hdeltas]
    exact Varint.length_encodeU64_le deltas
  · simp only [bind_ok, pure_ok, Prod.mk.injEq] at h
    obtain ⟨-, -, rfl, rfl⟩ := h
    rw [length_flatMap_le64]
    omega
  · cases h

end NumericColumn

/-- **An encoded column decodes to the cells of its rows.** -/
theorem decodeU64Column_encode {column : ColumnSchema} {rows : List Map}
    {chunk : EncodedColumnChunk} (h : encodeU64Column column rows = .ok chunk)
    (hmax : rows.length ≤ maxDecodedValues) :
    ∃ cells, List.Forall₂ (fun row cell =>
        readCell NumericColumn.texts Value.asU64 column row = .ok cell) rows cells ∧
      decodeU64Column chunk.metadata chunk.payload = .ok cells ∧
      chunk.metadata.statisticsMetadata =
        Statistics.encodeU64 cells.reduceOption.min? cells.reduceOption.max? := by
  simp only [encodeU64Column, bind_ok, Prod.exists, NumericColumn.collectValues, collectCells_ok,
    NumericColumn.countU64_ok, pure_ok] at h
  obtain ⟨_, hcol, _, _, ⟨cells, hcells, rfl, rfl⟩, codecMetadata, encoded, henc, valueCount, hvc,
    nullCount, hnc, rawCount, -, rawSize, -, compressedSize, hcs, rfl⟩ := h
  obtain ⟨hsum, hreq, bitmap, hsplit, hvalidity⟩ :=
    split_encoded hcells hvc hnc encoded "cmp3 numeric validity bitmap is truncated"
  have hlen := hcells.length_eq
  have hnon : valueCount.toNat - nullCount.toNat = cells.reduceOption.length := by omega
  refine ⟨cells, hcells, ?_, rfl⟩
  simp only [decodeU64Column, bind_ok, tryUsize_eq, Except.ok.injEq, failIf_ok, Nat.not_lt,
    Prod.exists, pure_ok]
  refine ⟨(), NumericColumn.validateMetadata_ok henc rfl rfl rfl hsum hreq hcs, _, rfl, (),
    by omega, _, rfl, (), by omega, bitmap, encoded, hsplit, _, hvalidity, cells.reduceOption, ?_,
    cells, [], ?_, rfl⟩
  · rw [hnon]
    exact NumericColumn.decodeValues_encodeValues henc (by omega)
  · exact restoreNulls_ok.2 ⟨rfl, (List.append_nil _).symm⟩

/-- **When a column of numbers is encoded**: the column accepts the rows, and their numbers never
decrease where the codec stores differences. -/
theorem exists_encodeU64Column {column : ColumnSchema} {rows : List Map}
    (htype : column.valueType = .u64) (himpl : NumericColumn.implemented column.codec = true)
    (hmax : rows.length ≤ maxDecodedValues) :
    (∃ chunk, encodeU64Column column rows = .ok chunk) ↔
      (∀ row ∈ rows, Accepted Value.asU64 column row) ∧ (NumericColumn.IsDelta column.codec →
        (rows.map fun row => (valueOf column row).asU64).reduceOption.IsChain (· ≤ ·)) := by
  have hcol : NumericColumn.validateColumn column = .ok () := by
    simp [NumericColumn.validateColumn, htype, himpl]
  have hnone : Value.null.asU64 = none := rfl
  simp only [encodeU64Column, NumericColumn.collectValues, bind_ok, Prod.exists,
    collectCells_accepted hnone, pure_ok]
  have hcells : (rows.map fun row => (valueOf column row).asU64).length = rows.length :=
    List.length_map ..
  generalize (rows.map fun row => (valueOf column row).asU64) = cells at hcells ⊢
  have hcount := count_false_add cells
  constructor
  · rintro ⟨chunk, _, -, _, _, ⟨haccept, rfl, rfl⟩, codecMetadata, encoded, henc, -⟩
    exact ⟨haccept, (NumericColumn.exists_encodeValues himpl (by omega)).1 ⟨_, _, henc⟩⟩
  · rintro ⟨haccept, hchain⟩
    obtain ⟨codecMetadata, encoded, henc⟩ :=
      (NumericColumn.exists_encodeValues himpl (by omega)).2 hchain
    have hsmall : maxDecodedValues * 11 + 1 < 2 ^ 61 := by decide
    have hlen := NumericColumn.length_encodeValues_le henc
    obtain ⟨valueCount, hvalue⟩ := NumericColumn.exists_countU64 (n := rows.length) (by omega)
    obtain ⟨nullCount, hnull⟩ :=
      NumericColumn.exists_countU64 (n := (cells.map Option.isSome).count false) (by omega)
    obtain ⟨rawCount, hraw⟩ :=
      NumericColumn.exists_countU64 (n := cells.reduceOption.length) (by omega)
    have hrawCount := NumericColumn.countU64_ok.1 hraw
    obtain ⟨rawSize, hsize⟩ : ∃ rawSize, checkedMul rawCount 8 = some rawSize := by
      refine ⟨_, if_pos ?_⟩
      show rawCount.toNat * 8 < 2 ^ 64
      omega
    obtain ⟨compressedSize, hcompressed⟩ := NumericColumn.exists_countU64
      (n := (withValidity column.nullable (cells.map Option.isSome) encoded).length) (by
        rw [length_withValidity, List.length_map]
        split <;> omega)
    exact ⟨_, (), hcol, _, _, ⟨haccept, rfl, rfl⟩, codecMetadata, encoded, henc, valueCount, hvalue,
      nullCount, hnull, rawCount, hraw, rawSize, okOr_ok.2 hsize, compressedSize, hcompressed, rfl⟩

end CompactCore.Codecs.V3
