/-
**The column codecs of the v0.3 format as checked code.**

The metadata of a column declares how many values it has, how many of them are null, how wide they
are and how large they were.  Each number is used without another look at it far from the test that
it passed: the counts are subtracted, the width shifts bits, the codec metadata is indexed, and a
payload is cut where the validity bitmap ends.

Running out of memory is not an outcome of checked code.  A vector for which the file declares a
length asks for it with a step of its own; one that is as long as a list in memory does not.

Main definitions:

* `CompactCore.Checked.Codecs.V3.decodeU64Column`,
  `CompactCore.Checked.Codecs.V3.decodeBooleanColumn`,
  `CompactCore.Checked.Codecs.V3.decodeStringColumn` — the decoders.

Main results:

* `CompactCore.Checked.Codecs.V3.decodeU64Column_total`,
  `CompactCore.Checked.Codecs.V3.decodeBooleanColumn_total`,
  `CompactCore.Checked.Codecs.V3.decodeStringColumn_total` — **these decoders do not panic**,
  whatever the metadata declares.
-/

import CompactCore.Checked.Bits
import CompactCore.Codecs.V3.Boolean
import CompactCore.Codecs.V3.Numeric
import CompactCore.Codecs.V3.String

set_option relaxedAutoImplicit false
set_option autoImplicit false

namespace CompactCore.Checked.Codecs.V3

open Wire Fault CompactError Format.V3

/-! ### Validity -/

/-- Cut the validity bitmap off the front of a payload. -/
def splitValidity (truncated : String) (nullable : Bool) (valueCount : ℕ) (payload : List UInt8) :
    Outcome (List UInt8 × List UInt8) := do
  let validityLen := if nullable then (valueCount + 7) / 8 else 0
  failIf (payload.length < validityLen) (error (invalidInput truncated))
  splitAt payload validityLen

/-- The validity of every row. -/
def readValidity (nullable : Bool) (valueCount : ℕ) (validityPayload : List UInt8) :
    Outcome (List Bool) :=
  if nullable then Bitmap.decode validityPayload valueCount
  else do
    withCapacity 1 valueCount
    return List.replicate valueCount true

/-- The validity of every row, checked against the number of values. -/
def decodeValidity (nullable : Bool) (valueCount nonNullCount : ℕ) (validityPayload : List UInt8) :
    Outcome (List Bool) := do
  let validity ← readValidity nullable valueCount validityPayload
  failIf (validity.count true ≠ nonNullCount)
    (error (invalidInput "cmp3 validity bitmap does not match null count"))
  return validity

theorem splitValidity_total (truncated : String) (nullable : Bool) (valueCount : ℕ)
    (payload : List UInt8) : splitValidity truncated nullable valueCount payload =
      total (CompactCore.Codecs.V3.splitValidity truncated nullable valueCount payload) := by
  rw [splitValidity, CompactCore.Codecs.V3.splitValidity]
  refine total_bind_of (total_failIf _ _).symm fun _ hlen => ?_
  rw [splitAt_of (not_lt.1 (failIf_ok.1 hlen))]
  rfl

/-- The values are a part of the payload. -/
theorem fits_splitValidity {truncated : String} {nullable : Bool} {valueCount : ℕ}
    {payload validityPayload valuesPayload : List UInt8} (hfit : Fits payload)
    (h : CompactCore.Codecs.V3.splitValidity truncated nullable valueCount payload =
      .ok (validityPayload, valuesPayload)) : Fits valuesPayload := by
  simp only [CompactCore.Codecs.V3.splitValidity, bind_ok, pure_ok, Prod.mk.injEq] at h
  obtain ⟨_, -, -, rfl⟩ := h
  exact hfit.drop _

theorem decodeValidity_total (nullable : Bool) {valueCount : ℕ} (nonNullCount : ℕ)
    (validityPayload : List UInt8) (hmax : valueCount ≤ maxAllocation) :
    decodeValidity nullable valueCount nonNullCount validityPayload =
      total (CompactCore.Codecs.V3.decodeValidity nullable valueCount nonNullCount
        validityPayload) := by
  have hread : readValidity nullable valueCount validityPayload =
      total (CompactCore.Codecs.V3.readValidity nullable valueCount validityPayload) := by
    unfold readValidity CompactCore.Codecs.V3.readValidity
    split
    · exact Bitmap.decode_total validityPayload hmax
    · rw [ok_bind_eq (withCapacity_of (by omega))]
      rfl
  rw [decodeValidity, CompactCore.Codecs.V3.decodeValidity]
  refine total_bind_of hread fun _ _ => ?_
  exact total_bind_of (total_failIf _ _).symm fun _ _ => rfl

/-- The number of decoded values that a column may have, as bytes of a vector. -/
theorem room_of_le {size valueCount : ℕ} (hsize : size ≤ 2 ^ 32)
    (hcount : valueCount ≤ maxDecodedValues) : size * valueCount ≤ maxAllocation := by
  have hle := Nat.mul_le_mul hsize hcount
  rw [maxDecodedValues] at hle
  rw [maxAllocation]
  omega

/-- The counts of a column that were compared can be subtracted. -/
theorem subCounts_of {valueCount nullCount : UInt64} (h : nullCount ≤ valueCount) :
    (subU64 valueCount nullCount : Outcome UInt64) = .ok (valueCount - nullCount) :=
  subU64_of (UInt64.le_iff_toNat_le.1 h)

/-! ### `u64` columns -/

namespace NumericColumn

open CompactCore.Codecs.V3.NumericColumn (countU64 expectedMetadataLen)

/-- The values of a delta column, whose base is part of the codec metadata. -/
def decodeDeltaBitpack (codecMetadata payload : List UInt8) (count : ℕ) :
    Outcome (List UInt64) := do
  let width ← index codecMetadata 0
  let baseBytes ← slice codecMetadata 1 9
  require (baseBytes.length = 8)
  let deltas ← Bitpack.decodeU64 payload width count
  withCapacity sizeOfU64 count
  total (CompactCore.Delta.decodeFrom "delta bitpack decode overflow" (u64OfLe baseBytes) deltas)

/-- `delta::decode_delta_u64`, whose vector is as long as the slice it is given. -/
def restoreDeltas (values : List UInt64) : Outcome (List UInt64) :=
  if values = [] then .ok []
  else do
    let base ← index values 0
    let deltas ← sliceFrom values 1
    let out ← total (CompactCore.Delta.decodeFrom "u64 delta decode overflow" base deltas)
    return base :: out

/-- `delta_varint::decode_u64`. -/
def decodeDeltaVarint (payload : List UInt8) : Outcome (List UInt64) := do
  let deltas ← Varint.decodeU64 payload
  restoreDeltas deltas

/-- `chunks_exact(8)`, each chunk a word. -/
def words : ℕ → List UInt8 → Outcome (List UInt64)
  | 0, _ => .ok []
  | count + 1, bytes => do
      let chunk := bytes.take 8
      require (chunk.length = 8)
      let rest ← words count (bytes.drop 8)
      return u64OfLe chunk :: rest

def decodeStored (payload : List UInt8) (count : ℕ) : Outcome (List UInt64) := do
  let expected ← okOr (error (invalidInput "cmp3 stored length overflow")) (usizeMul count 8)
  failIf (payload.length ≠ expected) (error (invalidInput "cmp3 stored payload length mismatch"))
  words (payload.length / 8) payload

def decodeValues (codec : SchemaCodec) (codecMetadata valuesPayload : List UInt8)
    (nonNullCount : ℕ) : Outcome (List UInt64) :=
  match codec with
  | .bitpack => do
      let width ← index codecMetadata 0
      Bitpack.decodeU64 valuesPayload width nonNullCount
  | .deltaBitpack => decodeDeltaBitpack codecMetadata valuesPayload nonNullCount
  | .deltaVarintU64 => do
      let values ← decodeDeltaVarint valuesPayload
      failIf (values.length ≠ nonNullCount)
        (error (invalidInput "cmp3 numeric decoded count mismatch"))
      return values
  | .stored => decodeStored valuesPayload nonNullCount
  | _ => .error (error (invalidInput "cmp3 numeric metadata has incompatible codec"))

/-- The width of a packing codec. -/
def validateWidth (codec : SchemaCodec) (codecMetadata : List UInt8) : Outcome Unit :=
  if codec = .bitpack ∨ codec = .deltaBitpack then do
    let width ← index codecMetadata 0
    failIf (64 < width) (error (invalidInput "bit width must be <= 64"))
  else .ok ()

def validateMetadata (metadata : ColumnChunkMetadata) (payload : List UInt8) : Outcome Unit := do
  failIf (metadata.valueType ≠ .u64)
    (error (invalidInput "cmp3 numeric metadata has incompatible type"))
  failIf (metadata.valueCount < metadata.nullCount ∨
      metadata.nullable = false ∧ metadata.nullCount ≠ 0)
    (error (invalidInput "cmp3 numeric null count is invalid"))
  let expectedMetadataLen ← total (expectedMetadataLen metadata.codec)
  failIf (metadata.codecMetadata.length ≠ expectedMetadataLen)
    (error (invalidInput "cmp3 numeric codec metadata length mismatch"))
  validateWidth metadata.codec metadata.codecMetadata
  let declaredCountOffset ← subUsize expectedMetadataLen 8
  let countBytes ← sliceFrom metadata.codecMetadata declaredCountOffset
  require (countBytes.length = 8)
  let nonNullCount ← subU64 metadata.valueCount metadata.nullCount
  failIf (u64OfLe countBytes ≠ nonNullCount)
    (error (invalidInput "cmp3 numeric codec metadata count mismatch"))
  let payloadLen ← total (countU64 payload.length)
  failIf (metadata.compressedSize ≠ payloadLen)
    (error (invalidInput "cmp3 numeric payload size does not match metadata"))

/-- The codec metadata of a packing codec begins with a width, that of a delta codec goes on with a
base, and all of them end in a count. -/
theorem expectedMetadataLen_bounds {codec : SchemaCodec} {len : ℕ}
    (h : expectedMetadataLen codec = .ok len) : 8 ≤ len ∧ (codec = .deltaBitpack → 9 ≤ len) := by
  unfold expectedMetadataLen at h
  split at h
  · cases h
    simp
  · cases h
    simp
  · cases h
    simp
  · cases h
    simp
  · cases h

theorem validateWidth_total {codec : SchemaCodec} {codecMetadata : List UInt8}
    (hlen : 0 < codecMetadata.length) : validateWidth codec codecMetadata =
      total (failIf ((codec = .bitpack ∨ codec = .deltaBitpack) ∧ 64 < codecMetadata.getD 0 0)
        (invalidInput "bit width must be <= 64")) := by
  rw [validateWidth, total_failIf]
  split
  · rename_i hcodec
    rw [ok_bind_eq (index_getD 0 hlen)]
    simp only [hcodec, true_and]
  · rename_i hcodec
    rw [failIf_of_not fun h => hcodec h.1]

theorem validateMetadata_total (metadata : ColumnChunkMetadata) (payload : List UInt8) :
    validateMetadata metadata payload =
      total (CompactCore.Codecs.V3.NumericColumn.validateMetadata metadata payload) := by
  rw [validateMetadata, CompactCore.Codecs.V3.NumericColumn.validateMetadata]
  refine total_bind_of (total_failIf _ _).symm fun _ _ => ?_
  refine total_bind_of (total_failIf _ _).symm fun _ hcounts => ?_
  have hle : metadata.nullCount ≤ metadata.valueCount :=
    UInt64.not_lt.1 fun hlt => failIf_ok.1 hcounts (.inl hlt)
  refine total_bind_of rfl fun len hlen => ?_
  obtain ⟨hbound, -⟩ := expectedMetadataLen_bounds hlen
  refine total_bind_of (total_failIf _ _).symm fun _ hsame => ?_
  have hsame : metadata.codecMetadata.length = len := not_not.1 (failIf_ok.1 hsame)
  refine total_bind_of (validateWidth_total (by omega)) fun _ _ => ?_
  -- the count is the last eight bytes
  rw [ok_bind_eq (subUsize_of hbound), ok_bind_eq (sliceFrom_of (by omega)),
    require_bind (by rw [List.length_drop]; omega), ok_bind_eq (subCounts_of hle)]
  refine total_bind_of (total_failIf _ _).symm fun _ _ => ?_
  exact total_bind_of rfl fun _ _ => (total_failIf _ _).symm

theorem words_total {count : ℕ} {bytes : List UInt8} (h : 8 * count ≤ bytes.length) :
    words count bytes = .ok (CompactCore.Codecs.V3.NumericColumn.words count bytes) := by
  induction count generalizing bytes with
  | zero => rfl
  | succ count ih =>
      rw [words]
      rw [require_bind (by rw [List.length_take]; omega),
        ok_bind_eq (ih (by rw [List.length_drop]; omega))]
      rfl

theorem decodeStored_total (payload : List UInt8) (count : ℕ) : decodeStored payload count =
    total (CompactCore.Codecs.V3.NumericColumn.decodeStored payload count) := by
  rw [decodeStored, CompactCore.Codecs.V3.NumericColumn.decodeStored]
  refine total_bind_of (total_okOr _ _).symm fun expected _ => ?_
  refine total_bind_of (total_failIf _ _).symm fun _ _ => ?_
  rw [words_total (by omega)]
  rfl

theorem decodeDeltaBitpack_total {codecMetadata : List UInt8} (payload : List UInt8) {count : ℕ}
    (hlen : 9 ≤ codecMetadata.length) (hcount : count ≤ maxDecodedValues) :
    decodeDeltaBitpack codecMetadata payload count =
      total (CompactCore.Codecs.V3.NumericColumn.decodeDeltaBitpack codecMetadata payload
        count) := by
  rw [decodeDeltaBitpack, CompactCore.Codecs.V3.NumericColumn.decodeDeltaBitpack,
    ok_bind_eq (index_getD 0 (by omega)), ok_bind_eq (slice_of (by omega) hlen),
    require_bind (length_slice (by omega) hlen)]
  refine total_bind_of (Bitpack.decodeU64_total _ _ _) fun deltas _ => ?_
  rw [ok_bind_eq (withCapacity_of (room_of_le (by rw [sizeOfU64]; omega) hcount))]

theorem decodeDeltaVarint_total {payload : List UInt8} (hfit : Fits payload) :
    decodeDeltaVarint payload = total (CompactCore.DeltaVarint.decodeU64 payload) := by
  refine total_bind_of (Varint.decodeU64_total hfit) fun deltas _ => ?_
  cases deltas with
  | nil => rfl
  | cons base deltas =>
      rw [restoreDeltas, if_neg (List.cons_ne_nil _ _), ok_bind_eq (index_of (a := base) rfl),
        ok_bind_eq (sliceFrom_of (by simp))]
      exact total_bind_of rfl fun _ _ => rfl

theorem decodeValues_total {codec : SchemaCodec} {codecMetadata valuesPayload : List UInt8}
    {nonNullCount : ℕ} (hlen : 0 < codecMetadata.length)
    (hbase : codec = .deltaBitpack → 9 ≤ codecMetadata.length)
    (hcount : nonNullCount ≤ maxDecodedValues) (hfit : Fits valuesPayload) :
    decodeValues codec codecMetadata valuesPayload nonNullCount =
      total (CompactCore.Codecs.V3.NumericColumn.decodeValues codec codecMetadata valuesPayload
        nonNullCount) := by
  unfold decodeValues CompactCore.Codecs.V3.NumericColumn.decodeValues
  cases codec with
  | bitpack =>
      dsimp only
      rw [ok_bind_eq (index_getD 0 hlen)]
      exact Bitpack.decodeU64_total _ _ _
  | deltaBitpack => exact decodeDeltaBitpack_total valuesPayload (hbase rfl) hcount
  | deltaVarintU64 =>
      refine total_bind_of (decodeDeltaVarint_total hfit) fun values _ => ?_
      exact total_bind_of (total_failIf _ _).symm fun _ _ => rfl
  | stored => exact decodeStored_total valuesPayload nonNullCount
  | _ => rfl

end NumericColumn

open NumericColumn in
def decodeU64Column (metadata : ColumnChunkMetadata) (payload : List UInt8) :
    Outcome (List (Option UInt64)) := do
  validateMetadata metadata payload
  let valueCount ← total (tryUsize metadata.valueCount "cmp3 numeric value count is too large")
  failIf (maxDecodedValues < valueCount)
    (error (invalidInput "cmp3 numeric value count exceeds configured limit"))
  let nullCount ← total (tryUsize metadata.nullCount "cmp3 numeric null count is too large")
  failIf (valueCount < nullCount) (error (invalidInput "cmp3 numeric count underflow"))
  let nonNullCount := valueCount - nullCount
  let (validityPayload, valuesPayload) ←
    splitValidity "cmp3 numeric validity bitmap is truncated" metadata.nullable valueCount payload
  let validity ← decodeValidity metadata.nullable valueCount nonNullCount validityPayload
  let values ← decodeValues metadata.codec metadata.codecMetadata valuesPayload nonNullCount
  let (decoded, _) ← total (CompactCore.Codecs.V3.restoreNulls
    "cmp3 numeric payload is missing values" validity values)
  return decoded

/-- What the metadata check leaves of the codec metadata. -/
theorem NumericColumn.codecMetadata_bounds {metadata : ColumnChunkMetadata} {payload : List UInt8}
    (h : CompactCore.Codecs.V3.NumericColumn.validateMetadata metadata payload = .ok ()) :
    8 ≤ metadata.codecMetadata.length ∧
      (metadata.codec = .deltaBitpack → 9 ≤ metadata.codecMetadata.length) := by
  simp only [CompactCore.Codecs.V3.NumericColumn.validateMetadata, bind_ok, failIf_ok,
    not_not] at h
  obtain ⟨_, -, _, -, len, hlen, _, hsame, -⟩ := h
  rw [hsame]
  exact NumericColumn.expectedMetadataLen_bounds hlen

/-- **A `u64` column is decoded without a panic.** -/
theorem decodeU64Column_total (metadata : ColumnChunkMetadata) {payload : List UInt8}
    (hfit : Fits payload) : decodeU64Column metadata payload =
      total (CompactCore.Codecs.V3.decodeU64Column metadata payload) := by
  rw [decodeU64Column, CompactCore.Codecs.V3.decodeU64Column]
  refine total_bind_of (NumericColumn.validateMetadata_total _ _) fun _ hvalid => ?_
  obtain ⟨hlen, hbase⟩ := NumericColumn.codecMetadata_bounds hvalid
  refine total_bind_of rfl fun valueCount _ => ?_
  refine total_bind_of (total_failIf _ _).symm fun _ hcount => ?_
  have hcount : valueCount ≤ maxDecodedValues := not_lt.1 (failIf_ok.1 hcount)
  have hroom : 1 * valueCount ≤ maxAllocation := room_of_le (by omega) hcount
  refine total_bind_of rfl fun nullCount _ => ?_
  refine total_bind_of (total_failIf _ _).symm fun _ _ => ?_
  refine total_bind_of (splitValidity_total _ _ _ _) fun r hsplit => ?_
  rcases r with ⟨validityPayload, valuesPayload⟩
  have hvalues : Fits valuesPayload := fits_splitValidity hfit hsplit
  refine total_bind_of (decodeValidity_total _ _ _ (by omega)) fun validity _ => ?_
  refine total_bind_of (NumericColumn.decodeValues_total (by omega) hbase (by omega) hvalues)
    fun values _ => ?_
  exact total_bind_of rfl fun _ _ => rfl

/-! ### Boolean columns -/

namespace BooleanColumn

def validateBooleanMetadata (metadata : ColumnChunkMetadata) (payload : List UInt8) :
    Outcome Unit := do
  failIf (metadata.valueType ≠ .bool ∨ metadata.codec ≠ .bitmap)
    (error (invalidInput "cmp3 boolean metadata has incompatible type or codec"))
  failIf (metadata.valueCount < metadata.nullCount)
    (error (invalidInput "cmp3 null count exceeds value count"))
  failIf (metadata.nullable = false ∧ metadata.nullCount ≠ 0)
    (error (invalidInput "cmp3 required column has null values"))
  failIf (metadata.codecMetadata.length ≠ 8)
    (error (invalidInput "cmp3 boolean codec metadata must contain non-null count"))
  require (metadata.codecMetadata.length = 8)
  let declaredNonNullCount := u64OfLe metadata.codecMetadata
  let expectedNonNullCount ← subU64 metadata.valueCount metadata.nullCount
  failIf (declaredNonNullCount ≠ expectedNonNullCount)
    (error (invalidInput "cmp3 boolean codec metadata count mismatch"))
  let payloadLen ← total (tryU64 payload.length "cmp3 boolean payload is too large")
  failIf (metadata.compressedSize ≠ payloadLen)
    (error (invalidInput "cmp3 boolean payload size does not match metadata"))
  let valueCount ← total (tryUsize metadata.valueCount "cmp3 boolean value count is too large")
  let nonNullCount ← total (tryUsize expectedNonNullCount "cmp3 boolean value count is too large")
  let expectedPayloadLen ← okOr (error (invalidInput "cmp3 boolean payload length overflow"))
    (usizeAdd (if metadata.nullable then (valueCount + 7) / 8 else 0) ((nonNullCount + 7) / 8))
  failIf (payload.length ≠ expectedPayloadLen)
    (error (invalidInput "cmp3 boolean payload length does not match counts"))

theorem validateBooleanMetadata_total (metadata : ColumnChunkMetadata) (payload : List UInt8) :
    validateBooleanMetadata metadata payload =
      total (CompactCore.Codecs.V3.BooleanColumn.validateBooleanMetadata metadata payload) := by
  rw [validateBooleanMetadata, CompactCore.Codecs.V3.BooleanColumn.validateBooleanMetadata]
  refine total_bind_of (total_failIf _ _).symm fun _ _ => ?_
  refine total_bind_of (total_failIf _ _).symm fun _ hcounts => ?_
  have hle : metadata.nullCount ≤ metadata.valueCount := UInt64.not_lt.1 (failIf_ok.1 hcounts)
  refine total_bind_of (total_failIf _ _).symm fun _ _ => ?_
  refine total_bind_of (total_failIf _ _).symm fun _ hlen => ?_
  rw [require_bind (not_not.1 (failIf_ok.1 hlen)), ok_bind_eq (subCounts_of hle)]
  refine total_bind_of (total_failIf _ _).symm fun _ _ => ?_
  refine total_bind_of rfl fun _ _ => ?_
  refine total_bind_of (total_failIf _ _).symm fun _ _ => ?_
  refine total_bind_of rfl fun _ _ => ?_
  refine total_bind_of rfl fun _ _ => ?_
  exact total_bind_of (total_okOr _ _).symm fun _ _ => (total_failIf _ _).symm

end BooleanColumn

open BooleanColumn in
/-- Decode a boolean payload into logical row values. -/
def decodeBooleanColumn (metadata : ColumnChunkMetadata) (payload : List UInt8) :
    Outcome (List (Option Bool)) := do
  validateBooleanMetadata metadata payload
  let valueCount ← total (tryUsize metadata.valueCount "cmp3 boolean value count is too large")
  failIf (maxDecodedValues < valueCount)
    (error (invalidInput "cmp3 boolean value count exceeds configured limit"))
  let nullCount ← total (tryUsize metadata.nullCount "cmp3 boolean null count is too large")
  failIf (valueCount < nullCount) (error (invalidInput "cmp3 boolean count underflow"))
  let nonNullCount := valueCount - nullCount
  let (validityPayload, valuePayload) ←
    splitValidity "cmp3 boolean validity bitmap is truncated" metadata.nullable valueCount payload
  let validity ← decodeValidity metadata.nullable valueCount nonNullCount validityPayload
  let values ← Bitmap.decode valuePayload nonNullCount
  withCapacity 1 valueCount
  let (decoded, rest) ← total (CompactCore.Codecs.V3.restoreNulls
    "cmp3 boolean value bitmap is missing values" validity values)
  failIf (rest ≠ []) (error (invalidInput "cmp3 boolean value bitmap has extra values"))
  return decoded

/-- **A boolean column is decoded without a panic.** -/
theorem decodeBooleanColumn_total (metadata : ColumnChunkMetadata) (payload : List UInt8) :
    decodeBooleanColumn metadata payload =
      total (CompactCore.Codecs.V3.decodeBooleanColumn metadata payload) := by
  rw [decodeBooleanColumn, CompactCore.Codecs.V3.decodeBooleanColumn]
  refine total_bind_of (BooleanColumn.validateBooleanMetadata_total _ _) fun _ _ => ?_
  refine total_bind_of rfl fun valueCount _ => ?_
  refine total_bind_of (total_failIf _ _).symm fun _ hcount => ?_
  have hroom : 1 * valueCount ≤ maxAllocation :=
    room_of_le (by omega) (not_lt.1 (failIf_ok.1 hcount))
  refine total_bind_of rfl fun nullCount _ => ?_
  refine total_bind_of (total_failIf _ _).symm fun _ _ => ?_
  refine total_bind_of (splitValidity_total _ _ _ _) fun r _ => ?_
  rcases r with ⟨validityPayload, valuePayload⟩
  refine total_bind_of (decodeValidity_total _ _ _ (by omega)) fun validity _ => ?_
  refine total_bind_of (Bitmap.decode_total _ (by omega)) fun values _ => ?_
  rw [ok_bind_eq (withCapacity_of hroom)]
  refine total_bind_of rfl fun r _ => ?_
  rcases r with ⟨decoded, rest⟩
  exact total_bind_of (total_failIf _ _).symm fun _ _ => rfl

/-! ### String columns -/

namespace StringColumn

open CompactCore.Codecs.V3.StringColumn (stringTexts maxDictionaryEntries implemented countU64)

def readBytes : ℕ → CheckedReader (List UInt8) :=
  Checked.readExact (invalidInput "cmp3 string length overflow")
    (invalidInput "cmp3 string payload is truncated")

def decodeStored (data : List UInt8) (count : ℕ) : Outcome (List String) := do
  withCapacity sizeOfString count
  let (values, cursor) ← Strings.readCount readBytes stringTexts (data.length + 1) count data 0
  failIf (cursor ≠ data.length) (error (invalidInput "cmp3 string payload has trailing bytes"))
  return values

/-- One string of `decode_prefix`, after `previous`. -/
def readPrefixed (previous : List UInt8) : CheckedReader (List UInt8 × String) := do
  let shared ← Varint.readU64
  let shared ← liftM (total (tryUsize shared "cmp3 prefix length is too large"))
  let suffixLen ← Varint.readU64
  let suffixLen ← liftM (total (tryUsize suffixLen "cmp3 suffix length is too large"))
  liftM (failIf (previous.length < shared)
    (error (invalidInput "cmp3 prefix exceeds previous string")))
  let suffix ← readBytes suffixLen
  let kept ← liftM (sliceTo previous shared : Outcome (List UInt8))
  let current := kept ++ suffix
  let value ← liftM (okOr (error (invalidInput "cmp3 string must be utf-8")) (fromUtf8 current))
  return (current, value)

/-- The loop of `decode_prefix`, in at most `rounds` rounds. -/
def readPrefixes : ℕ → List UInt8 → ℕ → CheckedReader (List String)
  | _, _, 0 => pure []
  | 0, _, _ + 1 => liftM (exhausted : Outcome (List String))
  | rounds + 1, previous, count + 1 => do
      let (current, value) ← readPrefixed previous
      let values ← readPrefixes rounds current count
      return value :: values

def decodePrefix (data : List UInt8) (count : ℕ) : Outcome (List String) := do
  withCapacity sizeOfString count
  let (values, cursor) ← readPrefixes (data.length + 1) [] count data 0
  failIf (cursor ≠ data.length) (error (invalidInput "cmp3 prefix payload has trailing bytes"))
  return values

/-- The head of a dictionary: its length and its strings. -/
def readDictionary : CheckedReader (List String) := do
  let dictionaryCount ← Varint.readU64
  let dictionaryCount ← liftM (total (tryUsize dictionaryCount "cmp3 dictionary is too large"))
  liftM (failIf (maxDictionaryEntries < dictionaryCount)
    (error (invalidInput "cmp3 dictionary cardinality limit exceeded")))
  liftM (withCapacity sizeOfString dictionaryCount : Outcome Unit)
  let data ← Reader.input
  Strings.readCount readBytes stringTexts (data.length + 1) dictionaryCount

def decodeDictionary (data : List UInt8) (count : ℕ) : Outcome (List String) := do
  let (dictionary, cursor) ← readDictionary data 0
  let rest ← sliceFrom data cursor
  let ids ← Varint.decodeU64 rest
  failIf (ids.length ≠ count) (error (invalidInput "cmp3 dictionary id count mismatch"))
  total (CompactCore.Dictionary.lookupAll "cmp3 dictionary id is too large"
    "cmp3 dictionary id out of range" dictionary ids)

/-- The run-length decoder is bounded by the size that the metadata declares. -/
def decodeRleStored (rawSize : UInt64) (valuesPayload : List UInt8) (nonNullCount : ℕ) :
    Outcome (List String) := do
  let rawSize ← total (tryUsize rawSize "cmp3 string raw size is too large")
  let prefixBytes ← okOr (error (invalidInput "cmp3 string size overflow"))
    (usizeMul nonNullCount 10)
  let maxEncodedValues ← okOr (error (invalidInput "cmp3 string size overflow"))
    (usizeAdd rawSize prefixBytes)
  let raw ← Rle.decodeRleBounded valuesPayload (min maxEncodedValues maxDecodedBytes)
  decodeStored raw nonNullCount

def decodeValues (codec : SchemaCodec) (rawSize : UInt64) (valuesPayload : List UInt8)
    (nonNullCount : ℕ) : Outcome (List String) :=
  match codec with
  | .prefixCodec => decodePrefix valuesPayload nonNullCount
  | .dictionary => decodeDictionary valuesPayload nonNullCount
  | .rle => decodeRleStored rawSize valuesPayload nonNullCount
  | .stored => decodeStored valuesPayload nonNullCount
  | _ => .error (error (invalidInput "cmp3 string metadata has incompatible codec"))

def validateMetadata (metadata : ColumnChunkMetadata) (payload : List UInt8) : Outcome Unit := do
  failIf (metadata.valueType ≠ .string ∨ implemented metadata.codec = false)
    (error (invalidInput "cmp3 string metadata has incompatible type or codec"))
  failIf (metadata.codecMetadata.length ≠ 8 ∨ metadata.valueCount < metadata.nullCount ∨
      metadata.nullable = false ∧ metadata.nullCount ≠ 0)
    (error (invalidInput "cmp3 string metadata is invalid"))
  require (metadata.codecMetadata.length = 8)
  let count := u64OfLe metadata.codecMetadata
  let nonNullCount ← subU64 metadata.valueCount metadata.nullCount
  failIf (count ≠ nonNullCount) (error (invalidInput "cmp3 string codec metadata count mismatch"))
  let payloadLen ← total (countU64 payload.length)
  failIf (metadata.compressedSize ≠ payloadLen)
    (error (invalidInput "cmp3 string payload size does not match metadata"))

theorem reads_readBytes : Checked.Reads readBytes (invalidInput stringTexts.overflow)
    (invalidInput stringTexts.truncated) := Checked.reads_readExact

theorem validateMetadata_total (metadata : ColumnChunkMetadata) (payload : List UInt8) :
    validateMetadata metadata payload =
      total (CompactCore.Codecs.V3.StringColumn.validateMetadata metadata payload) := by
  rw [validateMetadata, CompactCore.Codecs.V3.StringColumn.validateMetadata]
  refine total_bind_of (total_failIf _ _).symm fun _ _ => ?_
  refine total_bind_of (total_failIf _ _).symm fun _ hvalid => ?_
  obtain ⟨hlen, hcounts, -⟩ := not_or.1 (failIf_ok.1 hvalid) |>.imp_right not_or.1
  rw [require_bind (not_not.1 hlen), ok_bind_eq (subCounts_of (UInt64.not_lt.1 hcounts))]
  refine total_bind_of (total_failIf _ _).symm fun _ _ => ?_
  exact total_bind_of rfl fun _ _ => (total_failIf _ _).symm

theorem decodeStored_total {data : List UInt8} {count : ℕ} (hfit : Fits data)
    (hcount : count ≤ maxDecodedValues) : decodeStored data count =
      total (CompactCore.Codecs.V3.StringColumn.decodeStored data count) := by
  rw [decodeStored, CompactCore.Codecs.V3.StringColumn.decodeStored,
    ok_bind_eq (withCapacity_of (room_of_le (by rw [sizeOfString]; omega) hcount))]
  refine total_bind_of (Strings.readCount_total reads_readBytes hfit (Nat.succ_pos _) (by omega))
    fun r _ => ?_
  rcases r with ⟨values, cursor⟩
  exact total_bind_of (total_failIf _ _).symm fun _ _ => rfl

theorem readPrefixed_total {data previous : List UInt8} (hfit : Fits data) (c : ℕ) :
    readPrefixed previous data c =
      total (CompactCore.Codecs.V3.StringColumn.readPrefixed previous data c) := by
  rw [readPrefixed, CompactCore.Codecs.V3.StringColumn.readPrefixed]
  refine Reader.total_bind_of (Varint.readU64_total hfit) fun _ _ _ => ?_
  refine Reader.total_bind_of (Reader.total_lift_of rfl) fun shared _ _ => ?_
  refine Reader.total_bind_of (Varint.readU64_total hfit) fun _ _ _ => ?_
  refine Reader.total_bind_of (Reader.total_lift_of rfl) fun suffixLen _ _ => ?_
  refine Reader.total_bind_of (Reader.total_lift_of (total_failIf _ _).symm) fun _ _ hshared => ?_
  have hshared : shared ≤ previous.length := not_lt.1 (failIf_ok.1 (Reader.lift_ok.1 hshared).1)
  refine Reader.total_bind_of (reads_readBytes _ _ _) fun suffix _ _ => ?_
  rw [Reader.lift_bind_eq (sliceTo_of hshared)]
  exact Reader.total_bind_of (Reader.total_lift_of (total_okOr _ _).symm) fun _ _ _ => rfl

/-- A string with its two lengths takes a byte. -/
theorem readPrefixed_lt {data previous current : List UInt8} {value : String} {c c' : ℕ}
    (hfit : Fits data) (h : CompactCore.Codecs.V3.StringColumn.readPrefixed previous data c =
      .ok ((current, value), c')) : c < c' ∧ c' ≤ data.length := by
  simp only [CompactCore.Codecs.V3.StringColumn.readPrefixed,
    CompactCore.Codecs.V3.StringColumn.readBytes, Reader.bind_ok, CompactCore.Varint.readU64_ok,
    Reader.lift_ok, readExact_ok hfit, Reader.pure_ok] at h
  obtain ⟨v, _, ⟨-, rfl⟩, _, _, ⟨-, rfl⟩, w, _, ⟨-, rfl⟩, n, _, ⟨-, rfl⟩, _, _, ⟨-, rfl⟩, suffix, _,
    ⟨hat, hlen, rfl⟩, _, _, ⟨-, rfl⟩, -, rfl⟩ := h
  have hle := hat.le
  have hpos := CompactCore.Varint.length_encodeOne_pos v
  exact ⟨by omega, by omega⟩

/-- The bytes that are left limit the rounds. -/
theorem readPrefixes_total {data : List UInt8} (hfit : Fits data) {rounds count c : ℕ}
    {previous : List UInt8} (hpos : 0 < rounds) (hrounds : data.length < c + rounds) :
    readPrefixes rounds previous count data c =
      total (CompactCore.Codecs.V3.StringColumn.readPrefixes previous count data c) := by
  induction count generalizing rounds previous c with
  | zero => cases rounds <;> rfl
  | succ count ih =>
      obtain ⟨rounds, rfl⟩ := Nat.exists_eq_succ_of_ne_zero hpos.ne'
      rw [readPrefixes, CompactCore.Codecs.V3.StringColumn.readPrefixes]
      refine Reader.total_bind_of (readPrefixed_total hfit c) fun r c₁ hread => ?_
      rcases r with ⟨current, value⟩
      obtain ⟨hlt, hle⟩ := readPrefixed_lt hfit hread
      exact Reader.total_bind_of (ih (by omega) (by omega)) fun _ _ _ => rfl

theorem decodePrefix_total {data : List UInt8} {count : ℕ} (hfit : Fits data)
    (hcount : count ≤ maxDecodedValues) : decodePrefix data count =
      total (CompactCore.Codecs.V3.StringColumn.decodePrefix data count) := by
  rw [decodePrefix, CompactCore.Codecs.V3.StringColumn.decodePrefix,
    ok_bind_eq (withCapacity_of (room_of_le (by rw [sizeOfString]; omega) hcount))]
  refine total_bind_of (readPrefixes_total hfit (Nat.succ_pos _) (by omega)) fun r _ => ?_
  rcases r with ⟨values, cursor⟩
  exact total_bind_of (total_failIf _ _).symm fun _ _ => rfl

theorem readDictionary_total {data : List UInt8} (hfit : Fits data) : readDictionary data 0 =
    total (CompactCore.Codecs.V3.StringColumn.readDictionary data 0) := by
  rw [readDictionary, CompactCore.Codecs.V3.StringColumn.readDictionary]
  refine Reader.total_bind_of (Varint.readU64_total hfit) fun _ _ _ => ?_
  refine Reader.total_bind_of (Reader.total_lift_of rfl) fun dictionaryCount _ _ => ?_
  refine Reader.total_bind_of (Reader.total_lift_of (total_failIf _ _).symm) fun _ _ hmax => ?_
  have hmax : dictionaryCount ≤ 4096 := not_lt.1 (failIf_ok.1 (Reader.lift_ok.1 hmax).1)
  rw [Reader.lift_bind_eq (withCapacity_of (by rw [sizeOfString, maxAllocation]; omega)),
    Reader.bind_of_ok (Reader.input_ok.2 ⟨rfl, rfl⟩)]
  exact Strings.readCount_total reads_readBytes hfit (Nat.succ_pos _) (by omega)

/-- A dictionary ends inside the payload. -/
theorem cursor_le_of_readDictionary {data : List UInt8} (hfit : Fits data) {c : ℕ}
    {dictionary : List String}
    (h : CompactCore.Codecs.V3.StringColumn.readDictionary data 0 = .ok (dictionary, c)) :
    c ≤ data.length := by
  simp only [CompactCore.Codecs.V3.StringColumn.readDictionary, Reader.bind_ok,
    CompactCore.Varint.readU64_ok, Reader.lift_ok] at h
  obtain ⟨_, _, ⟨hlen, rfl⟩, _, _, ⟨-, rfl⟩, _, _, ⟨-, rfl⟩, hread⟩ := h
  obtain ⟨-, hat, rfl⟩ := (CompactCore.Strings.readCount_ok hfit hlen.le).1 hread
  exact hat.le

theorem decodeDictionary_total {data : List UInt8} (hfit : Fits data) (count : ℕ) :
    decodeDictionary data count =
      total (CompactCore.Codecs.V3.StringColumn.decodeDictionary data count) := by
  rw [decodeDictionary, CompactCore.Codecs.V3.StringColumn.decodeDictionary]
  refine total_bind_of (readDictionary_total hfit) fun r hread => ?_
  rcases r with ⟨dictionary, cursor⟩
  dsimp only
  rw [ok_bind_eq (sliceFrom_of (cursor_le_of_readDictionary hfit hread))]
  refine total_bind_of (Varint.decodeU64_total (hfit.drop _)) fun ids _ => ?_
  exact total_bind_of (total_failIf _ _).symm fun _ _ => rfl

theorem decodeRleStored_total (rawSize : UInt64) (valuesPayload : List UInt8) {nonNullCount : ℕ}
    (hcount : nonNullCount ≤ maxDecodedValues) :
    decodeRleStored rawSize valuesPayload nonNullCount =
      total (CompactCore.Codecs.V3.StringColumn.decodeRleStored rawSize valuesPayload
        nonNullCount) := by
  rw [decodeRleStored, CompactCore.Codecs.V3.StringColumn.decodeRleStored]
  refine total_bind_of rfl fun _ _ => ?_
  refine total_bind_of (total_okOr _ _).symm fun _ _ => ?_
  refine total_bind_of (total_okOr _ _).symm fun maxEncodedValues _ => ?_
  have hmax : min maxEncodedValues maxDecodedBytes ≤ 256 * 1024 * 1024 := Nat.min_le_right _ _
  refine total_bind_of (Rle.decodeRleBounded_total (by rw [maxAllocation]; omega) _)
    fun raw hraw => ?_
  have hle := CompactCore.Rle.decodeRleBounded_length_le hraw
  have hfit : Fits raw := lt_of_le_of_lt (hle.trans hmax) (by rw [wordSize]; omega)
  exact decodeStored_total hfit hcount

theorem decodeValues_total (codec : SchemaCodec) (rawSize : UInt64) {valuesPayload : List UInt8}
    {nonNullCount : ℕ} (hfit : Fits valuesPayload) (hcount : nonNullCount ≤ maxDecodedValues) :
    decodeValues codec rawSize valuesPayload nonNullCount =
      total (CompactCore.Codecs.V3.StringColumn.decodeValues codec rawSize valuesPayload
        nonNullCount) := by
  unfold decodeValues CompactCore.Codecs.V3.StringColumn.decodeValues
  cases codec with
  | prefixCodec => exact decodePrefix_total hfit hcount
  | dictionary => exact decodeDictionary_total hfit nonNullCount
  | rle => exact decodeRleStored_total rawSize valuesPayload hcount
  | stored => exact decodeStored_total hfit hcount
  | _ => rfl

end StringColumn

open StringColumn in
def decodeStringColumn (metadata : ColumnChunkMetadata) (payload : List UInt8) :
    Outcome (List (Option String)) := do
  validateMetadata metadata payload
  let valueCount ← total (tryUsize metadata.valueCount "cmp3 string value count is too large")
  failIf (maxDecodedValues < valueCount)
    (error (invalidInput "cmp3 string value count exceeds configured limit"))
  let nonNullCount ← subU64 metadata.valueCount metadata.nullCount
  let nonNullCount ← total (tryUsize nonNullCount "cmp3 string value count is too large")
  let (validityPayload, valuesPayload) ←
    splitValidity "cmp3 string validity bitmap is truncated" metadata.nullable valueCount payload
  failIf (metadata.codec ≠ .rle ∧ valuesPayload.length < nonNullCount)
    (error (invalidInput "cmp3 string payload cannot contain declared values"))
  let validity ← decodeValidity metadata.nullable valueCount nonNullCount validityPayload
  let values ← decodeValues metadata.codec metadata.rawSize valuesPayload nonNullCount
  let (decoded, _) ← total (CompactCore.Codecs.V3.restoreNulls
    "cmp3 string payload is missing values" validity values)
  return decoded

/-- The string codecs subtract the counts again behind the metadata check. -/
theorem StringColumn.nullCount_le {metadata : ColumnChunkMetadata} {payload : List UInt8}
    (h : CompactCore.Codecs.V3.StringColumn.validateMetadata metadata payload = .ok ()) :
    metadata.nullCount ≤ metadata.valueCount := by
  simp only [CompactCore.Codecs.V3.StringColumn.validateMetadata, bind_ok, failIf_ok, not_or,
    UInt64.not_lt] at h
  obtain ⟨_, -, _, ⟨-, hle, -⟩, -⟩ := h
  exact hle

/-- **A string column is decoded without a panic.** -/
theorem decodeStringColumn_total (metadata : ColumnChunkMetadata) {payload : List UInt8}
    (hfit : Fits payload) : decodeStringColumn metadata payload =
      total (CompactCore.Codecs.V3.decodeStringColumn metadata payload) := by
  rw [decodeStringColumn, CompactCore.Codecs.V3.decodeStringColumn]
  refine total_bind_of (StringColumn.validateMetadata_total _ _) fun _ hvalid => ?_
  have hle := StringColumn.nullCount_le hvalid
  refine total_bind_of rfl fun valueCount hvalue => ?_
  refine total_bind_of (total_failIf _ _).symm fun _ hcount => ?_
  have hcount : valueCount ≤ maxDecodedValues := not_lt.1 (failIf_ok.1 hcount)
  have hroom : 1 * valueCount ≤ maxAllocation := room_of_le (by omega) hcount
  rw [ok_bind_eq (subCounts_of hle)]
  refine total_bind_of rfl fun nonNullCount hnonNull => ?_
  have hnon : nonNullCount ≤ valueCount := by
    rw [tryUsize_eq, Except.ok.injEq] at hvalue hnonNull
    rw [← hvalue, ← hnonNull, UInt64.toNat_sub_of_le _ _ hle]
    exact Nat.sub_le ..
  refine total_bind_of (splitValidity_total _ _ _ _) fun r hsplit => ?_
  rcases r with ⟨validityPayload, valuesPayload⟩
  have hvalues : Fits valuesPayload := fits_splitValidity hfit hsplit
  refine total_bind_of (total_failIf _ _).symm fun _ _ => ?_
  refine total_bind_of (decodeValidity_total _ _ _ (by omega)) fun validity _ => ?_
  refine total_bind_of (StringColumn.decodeValues_total _ _ hvalues (hnon.trans hcount))
    fun values _ => ?_
  exact total_bind_of rfl fun _ _ => rfl

end CompactCore.Checked.Codecs.V3
