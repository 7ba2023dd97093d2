/-
**`CMP3` headers and column metadata.**

A file starts with a small fixed header; every column chunk starts with a metadata record.  The
record repeats what the schema says about the column and adds counts, sizes, and two opaque byte
strings for the codec and the statistics.  The same header, under another magic, opens a `CMP4`
file.

Main definitions:

* `CompactCore.Format.emptyHeader`, `CompactCore.Format.readHeader` — the header, for any magic;
* `CompactCore.Format.V3.ColumnChunkMetadata` — the record;
* `CompactCore.Format.V3.encodeColumnMetadata`, `CompactCore.Format.V3.decodeColumnMetadata` — its
  two directions.

Main results:

* `CompactCore.Format.readHeader_ok` — parsing a header is exact;
* `CompactCore.Format.V3.decodeColumnMetadata_ok` — **parsing a record is exact**;
* `CompactCore.Format.V3.decodeColumnMetadata_canonical` — **records are canonical and
  self-delimiting**.
-/

import CompactCore.Schema
import CompactCore.Text

set_option relaxedAutoImplicit false
set_option autoImplicit false

namespace CompactCore.Format

open Wire CompactError

/-! ### The file header -/

structure FileHeader where
  flags : UInt8
  payload : List UInt8
  bodyOffset : ℕ
  deriving DecidableEq, Repr

def fileHeaderLen : ℕ := 10

/-- The header of a format, with no optional header payload. -/
def emptyHeader (magic : List UInt8) (version : UInt8) : List UInt8 :=
  magic ++ ([version, 0] ++ le32 0)

/-- Parse and validate the header of the format that `tag` names in error texts. -/
def readHeader (tag : String) (magic : List UInt8) (version : UInt8) (data : List UInt8) :
    Result FileHeader := do
  failIf (data.length < fileHeaderLen) (invalidInput (tag ++ " header is truncated"))
  failIf (data.take 4 ≠ magic) (invalidInput ("invalid " ++ tag ++ " magic"))
  failIf (data.getD 4 0 ≠ version) (unsupported (tag ++ " version"))
  let flags := data.getD 5 0
  failIf (flags ≠ 0) (unsupported (tag ++ " flags"))
  let payloadLen := (u32OfLe ((data.drop 6).take 4)).toNat
  let bodyOffset ← okOr (invalidInput (tag ++ " header length overflow"))
    (usizeAdd fileHeaderLen payloadLen)
  failIf (data.length < bodyOffset) (invalidInput (tag ++ " header payload is truncated"))
  return ⟨flags, (data.drop fileHeaderLen).take payloadLen, bodyOffset⟩

/-- **Parsing a header is exact.** -/
theorem readHeader_ok {tag : String} {magic : List UInt8} {version : UInt8} {data : List UInt8}
    {header : FileHeader} (hmagic : magic.length = 4) :
    readHeader tag magic version data = .ok header ↔
      ∃ len : UInt32, At data 0 (magic ++ ([version, 0] ++ (le32 len ++ header.payload))) ∧
        header.payload.length = len.toNat ∧ header.flags = 0 ∧
        header.bodyOffset = fileHeaderLen + len.toNat := by
  simp only [readHeader, bind_ok, failIf_ok, not_not, not_lt, okOr_ok, usizeAdd_eq_some, pure_ok,
    exists_const, and_assoc, exists_and_left, exists_eq_left']
  constructor
  · intro h
    obtain ⟨hlen, hm, hv, hf, -, hle, rfl⟩ := h
    rw [fileHeaderLen] at hlen hle
    have h0 : At data 0 magic := at_of_slice (by omega) hm
    have h4 : At data 4 [version] := at_of_getD (by omega) hv
    have h5 : At data 5 [0] := at_of_getD (by omega) hf
    have h6 : At data 6 (le32 (u32OfLe ((data.drop 6).take 4))) := by
      rw [le32_u32OfLe (by simp; omega)]
      exact at_take_drop (by omega)
    have h10 := at_take_drop hle
    refine ⟨u32OfLe ((data.drop 6).take 4), ?_, ?_, hf, rfl⟩
    · rw [at_append, at_append, at_append, hmagic, length_le32]
      exact ⟨h0, at_cons.2 ⟨h4, h5⟩, h6, h10⟩
    · show ((data.drop fileHeaderLen).take _).length = _
      rw [List.length_take, List.length_drop, fileHeaderLen]
      omega
  · intro h
    obtain ⟨len, hat, hlen, hflags, hoff⟩ := h
    obtain ⟨flags, payload, bodyOffset⟩ := header
    have hlt := len.toNat_lt
    have hle := hat.le
    rw [at_append, at_append, at_append, hmagic, length_le32] at hat
    simp only [List.length_append, List.length_cons, List.length_nil, length_le32, hmagic] at hle
    obtain ⟨h0, h4, h6, h10⟩ := hat
    rw [at_cons] at h4
    have h6' : (data.drop 6).take 4 = le32 len := by
      have := h6.slice
      rwa [length_le32] at this
    have h0' : data.take 4 = magic := by
      have := h0.slice
      rwa [hmagic] at this
    simp only at hlen hflags hoff
    rw [h6', u32OfLe_le32, fileHeaderLen]
    refine ⟨by omega, h0', h4.1.getD, h4.2.getD, ?_, by omega, ?_⟩
    · rw [wordSize]
      omega
    · have h10' : (data.drop 10).take len.toNat = payload := by
        have := h10.slice
        rwa [hlen] at this
      rw [h10', hflags, hoff, h4.2.getD, fileHeaderLen]

/-- A header without a payload. -/
theorem readHeader_empty {tag : String} {magic : List UInt8} {version : UInt8} {data : List UInt8}
    {header : FileHeader} (hmagic : magic.length = 4) :
    (readHeader tag magic version data = .ok header ∧ header.payload = []) ↔
      At data 0 (emptyHeader magic version) ∧ header = ⟨0, [], fileHeaderLen⟩ := by
  rw [readHeader_ok hmagic, emptyHeader]
  constructor
  · intro h
    obtain ⟨⟨len, hat, hlen, hflags, hoff⟩, hnil⟩ := h
    obtain ⟨flags, payload, bodyOffset⟩ := header
    simp only at hnil hlen hflags hoff hat
    subst hnil
    obtain rfl : len = 0 := by
      rw [← UInt32.toNat_inj, ← hlen]
      rfl
    rw [List.append_nil] at hat
    rw [hflags, hoff]
    exact ⟨hat, rfl⟩
  · intro h
    obtain ⟨hat, rfl⟩ := h
    refine ⟨⟨0, ?_, rfl, rfl, rfl⟩, rfl⟩
    rw [List.append_nil]
    exact hat

namespace V3

/-! ### Column metadata -/

structure ColumnChunkMetadata where
  name : String
  valueType : SchemaValueType
  nullable : Bool
  codec : SchemaCodec
  valueCount : UInt64
  nullCount : UInt64
  rawSize : UInt64
  compressedSize : UInt64
  codecMetadata : List UInt8
  statisticsMetadata : List UInt8
  deriving DecidableEq, Repr

def encodeEmptyHeader : List UInt8 := emptyHeader magicV3 versionV3

def decodeHeader (data : List UInt8) : Result FileHeader := readHeader "cmp3" magicV3 versionV3 data

def valueTypeToId : SchemaValueType → UInt8
  | .bool => 1
  | .string => 2
  | .u64 => 3

def idToValueType (id : UInt8) : Result SchemaValueType :=
  if id = 1 then .ok .bool
  else if id = 2 then .ok .string
  else if id = 3 then .ok .u64
  else .error (unsupported "cmp3 value type id")

def codecToId : SchemaCodec → UInt8
  | .auto => 1
  | .bitmap => 2
  | .bitpack => 3
  | .deltaBitpack => 9
  | .dictionary => 4
  | .deltaVarintU64 => 5
  | .prefixCodec => 6
  | .rle => 7
  | .stored => 8

def idToCodec (id : UInt8) : Result SchemaCodec :=
  if id = 1 then .ok .auto
  else if id = 2 then .ok .bitmap
  else if id = 3 then .ok .bitpack
  else if id = 9 then .ok .deltaBitpack
  else if id = 4 then .ok .dictionary
  else if id = 5 then .ok .deltaVarintU64
  else if id = 6 then .ok .prefixCodec
  else if id = 7 then .ok .rle
  else if id = 8 then .ok .stored
  else .error (unsupported "cmp3 codec id")

/-- The codecs that may be selected for a value type. -/
def selectable (valueType : SchemaValueType) (codec : SchemaCodec) : Bool :=
  match valueType with
  | .u64 =>
      match codec with
      | .bitpack | .deltaBitpack | .deltaVarintU64 | .stored => true
      | _ => false
  | .string =>
      match codec with
      | .dictionary | .prefixCodec | .rle | .stored => true
      | _ => false
  | .bool =>
      match codec with
      | .bitmap | .stored => true
      | _ => false

def validateColumnMetadata (metadata : ColumnChunkMetadata) : Result Unit := do
  failIf (metadata.name = "") (invalidInput "cmp3 column name must not be empty")
  failIf (metadata.valueCount < metadata.nullCount)
    (invalidInput "cmp3 null count exceeds value count")
  failIf (metadata.nullable = false ∧ metadata.nullCount ≠ 0)
    (invalidInput "cmp3 required column has null values")
  failIf (selectable metadata.valueType metadata.codec = false)
    (invalidInput "cmp3 selected codec does not match value type")

/-- Encode one column chunk metadata record without its payload. -/
def encodeColumnMetadata (metadata : ColumnChunkMetadata) : Result (List UInt8) := do
  validateColumnMetadata metadata
  let name := asBytes metadata.name
  let nameLen ← tryU16 name.length "cmp3 column name is too long"
  let codecMetadataLen ← tryU32 metadata.codecMetadata.length "cmp3 codec metadata is too large"
  let statisticsMetadataLen ←
    tryU32 metadata.statisticsMetadata.length "cmp3 statistics metadata is too large"
  return le16 nameLen ++ (name ++ ([valueTypeToId metadata.valueType] ++
    ([if metadata.nullable then 1 else 0] ++ ([codecToId metadata.codec] ++
    (le64 metadata.valueCount ++ (le64 metadata.nullCount ++ (le64 metadata.rawSize ++
    (le64 metadata.compressedSize ++ (le32 codecMetadataLen ++ (metadata.codecMetadata ++
    (le32 statisticsMetadataLen ++ metadata.statisticsMetadata)))))))))))

def readBytes (err : String) : ℕ → Reader CompactError (List UInt8) :=
  readExact (invalidInput "cmp3 metadata length overflow") (invalidInput err)

def idToNullable (flag : UInt8) : Result Bool :=
  if flag = 0 then .ok false
  else if flag = 1 then .ok true
  else .error (invalidInput "invalid cmp3 nullable flag")

/-- The fields of a record, in order. -/
def readColumnMetadata : Reader CompactError ColumnChunkMetadata := do
  let nameLen ← readUInt16 (readBytes "cmp3 column name length is truncated")
  let nameBytes ← readBytes "cmp3 column name is truncated" nameLen.toNat
  let name ← okOr (invalidInput "cmp3 column name must be utf-8") (fromUtf8 nameBytes)
  let valueTypeId ← readUInt8 (readBytes "cmp3 column value type is truncated")
  let valueType ← idToValueType valueTypeId
  let nullableFlag ← readUInt8 (readBytes "cmp3 nullable flag is truncated")
  let nullable ← idToNullable nullableFlag
  let codecId ← readUInt8 (readBytes "cmp3 codec id is truncated")
  let codec ← idToCodec codecId
  let valueCount ← readUInt64 (readBytes "cmp3 value count is truncated")
  let nullCount ← readUInt64 (readBytes "cmp3 null count is truncated")
  let rawSize ← readUInt64 (readBytes "cmp3 raw size is truncated")
  let compressedSize ← readUInt64 (readBytes "cmp3 compressed size is truncated")
  let codecMetadataLen ← readUInt32 (readBytes "cmp3 codec metadata length is truncated")
  let codecMetadata ← readBytes "cmp3 codec metadata is truncated" codecMetadataLen.toNat
  let statisticsMetadataLen ← readUInt32 (readBytes "cmp3 statistics metadata length is truncated")
  let statisticsMetadata ←
    readBytes "cmp3 statistics metadata is truncated" statisticsMetadataLen.toNat
  let metadata : ColumnChunkMetadata := {
    name := name
    valueType := valueType
    nullable := nullable
    codec := codec
    valueCount := valueCount
    nullCount := nullCount
    rawSize := rawSize
    compressedSize := compressedSize
    codecMetadata := codecMetadata
    statisticsMetadata := statisticsMetadata }
  validateColumnMetadata metadata
  return metadata

/-- Decode one column metadata record and return the number of consumed bytes. -/
def decodeColumnMetadata (data : List UInt8) : Result (ColumnChunkMetadata × ℕ) :=
  readColumnMetadata data 0

/-! ### Records are canonical -/

@[simp] theorem idToValueType_ok {id : UInt8} {valueType : SchemaValueType} :
    idToValueType id = .ok valueType ↔ id = valueTypeToId valueType := by
  unfold idToValueType
  constructor
  · intro h
    iterate 3
      rcases ite_ok.1 h with ⟨hid, rfl⟩ | ⟨-, h⟩
      · exact hid
    cases h
  · intro h
    subst h
    cases valueType <;> rfl

@[simp] theorem idToCodec_ok {id : UInt8} {codec : SchemaCodec} :
    idToCodec id = .ok codec ↔ id = codecToId codec := by
  unfold idToCodec
  constructor
  · intro h
    iterate 9
      rcases ite_ok.1 h with ⟨hid, rfl⟩ | ⟨-, h⟩
      · exact hid
    cases h
  · intro h
    subst h
    cases codec <;> rfl

@[simp] theorem idToNullable_ok {flag : UInt8} {nullable : Bool} :
    idToNullable flag = .ok nullable ↔ flag = if nullable then 1 else 0 := by
  unfold idToNullable
  constructor
  · intro h
    iterate 2
      rcases ite_ok.1 h with ⟨hid, rfl⟩ | ⟨-, h⟩
      · exact hid
    cases h
  · intro h
    subst h
    cases nullable <;> rfl

/-- A record that passes validation. -/
structure ColumnChunkMetadata.Valid (metadata : ColumnChunkMetadata) : Prop where
  name_ne : metadata.name ≠ ""
  null_le : metadata.nullCount ≤ metadata.valueCount
  required : metadata.nullable = false → metadata.nullCount = 0
  selectable : selectable metadata.valueType metadata.codec = true

@[simp] theorem validateColumnMetadata_ok {metadata : ColumnChunkMetadata} {u : Unit} :
    validateColumnMetadata metadata = .ok u ↔ metadata.Valid := by
  simp only [validateColumnMetadata, bind_ok, failIf_ok, exists_const, UInt64.not_lt, not_and,
    not_not, Bool.not_eq_false]
  constructor
  · rintro ⟨h₁, h₂, h₃, h₄⟩
    exact ⟨h₁, h₂, h₃, h₄⟩
  · intro h
    exact ⟨h.1, h.2, h.3, h.4⟩

theorem encodeColumnMetadata_valid {metadata : ColumnChunkMetadata} {bytes : List UInt8}
    (h : encodeColumnMetadata metadata = .ok bytes) : metadata.Valid := by
  simp only [encodeColumnMetadata, bind_ok, validateColumnMetadata_ok] at h
  obtain ⟨_, hvalid, -⟩ := h
  exact hvalid

/-- A record is encoded when its parts have lengths that their fields can hold. -/
theorem exists_encodeColumnMetadata {metadata : ColumnChunkMetadata} (hvalid : metadata.Valid)
    (hname : (asBytes metadata.name).length < 2 ^ 16)
    (hcodec : metadata.codecMetadata.length < 2 ^ 32)
    (hstatistics : metadata.statisticsMetadata.length < 2 ^ 32) :
    ∃ bytes, encodeColumnMetadata metadata = .ok bytes ∧
      bytes.length = 45 + (asBytes metadata.name).length + metadata.codecMetadata.length +
        metadata.statisticsMetadata.length := by
  simp only [encodeColumnMetadata, bind_ok, validateColumnMetadata_ok, pure_ok]
  refine ⟨_, ⟨(), hvalid, _, if_pos hname, _, if_pos hcodec, _, if_pos hstatistics, rfl⟩, ?_⟩
  simp only [List.length_append, length_le16, length_le32, length_le64, List.length_cons,
    List.length_nil]
  omega

/-- **Parsing a record is exact**: what is read at a cursor is the record whose encoding sits
there. -/
theorem readColumnMetadata_ok {data : List UInt8} {c c' : ℕ} {metadata : ColumnChunkMetadata}
    (hfit : Fits data) : readColumnMetadata data c = .ok (metadata, c') ↔
      ∃ bytes, encodeColumnMetadata metadata = .ok bytes ∧ At data c bytes ∧
        c' = c + bytes.length := by
  simp only [readColumnMetadata, readBytes, Reader.bind_ok, readUInt16_ok hfit, readUInt8_ok hfit,
    readUInt32_ok hfit, readUInt64_ok hfit, readExact_ok hfit, Reader.lift_ok, okOr_ok,
    fromUtf8_eq_some, idToValueType_ok, idToNullable_ok, idToCodec_ok, validateColumnMetadata_ok,
    Reader.pure_ok, encodeColumnMetadata, bind_ok, tryU16_ok, tryU32_ok, pure_ok, and_assoc,
    exists_and_left, exists_eq_left, exists_eq_left', exists_const]
  constructor
  · intro h
    obtain ⟨nameLen, h₁, _, h₂, hlen₂, name, rfl, _, h₃, valueType, rfl, _, h₄, nullable, rfl, _,
      h₅, codec, rfl, valueCount, h₆, nullCount, h₇, rawSize, h₈, compressedSize, h₉, codecLen, h₁₀,
      codecMetadata, h₁₁, hlen₁₁, statsLen, h₁₂, stats, h₁₃, hlen₁₃, hvalid, rfl, rfl⟩ := h
    refine ⟨hvalid, _, ⟨nameLen, hlen₂.symm, codecLen, hlen₁₁.symm, statsLen, hlen₁₃.symm, rfl⟩,
      ?_, ?_⟩
    · simp only [at_append, length_le16, length_le32, length_le64, List.length_singleton, hlen₂,
        hlen₁₁]
      exact ⟨h₁, h₂, h₃, h₄, h₅, h₆, h₇, h₈, h₉, h₁₀, h₁₁, h₁₂, h₁₃⟩
    · simp only [List.length_append, length_le16, length_le32, length_le64, List.length_singleton,
        hlen₂, hlen₁₁, hlen₁₃]
      omega
  · intro h
    obtain ⟨hvalid, _, ⟨nameLen, hlen₂, codecLen, hlen₁₁, statsLen, hlen₁₃, rfl⟩, hat, rfl⟩ := h
    obtain ⟨name, valueType, nullable, codec, valueCount, nullCount, rawSize, compressedSize,
      codecMetadata, stats⟩ := metadata
    simp only at hlen₂ hlen₁₁ hlen₁₃ hat
    simp only [at_append, length_le16, length_le32, length_le64, List.length_singleton, ← hlen₂,
      ← hlen₁₁] at hat
    obtain ⟨h₁, h₂, h₃, h₄, h₅, h₆, h₇, h₈, h₉, h₁₀, h₁₁, h₁₂, h₁₃⟩ := hat
    refine ⟨nameLen, h₁, _, h₂, hlen₂.symm, name, rfl, _, h₃, valueType, rfl, _, h₄, nullable, rfl,
      _, h₅, codec, rfl, valueCount, h₆, nullCount, h₇, rawSize, h₈, compressedSize, h₉, codecLen,
      h₁₀, codecMetadata, h₁₁, hlen₁₁.symm, statsLen, h₁₂, stats, h₁₃, hlen₁₃.symm, hvalid, rfl, ?_⟩
    simp only [List.length_append, length_le16, length_le32, length_le64, List.length_singleton,
      ← hlen₂, ← hlen₁₁, ← hlen₁₃]
    omega

theorem decodeColumnMetadata_ok {data : List UInt8} {n : ℕ} {metadata : ColumnChunkMetadata}
    (hfit : Fits data) : decodeColumnMetadata data = .ok (metadata, n) ↔
      ∃ bytes, encodeColumnMetadata metadata = .ok bytes ∧ bytes <+: data ∧ n = bytes.length := by
  simp [decodeColumnMetadata, readColumnMetadata_ok hfit, at_iff_drop]

/-- The parts of a record have lengths that their fields can hold. -/
theorem encodeColumnMetadata_fits {metadata : ColumnChunkMetadata} {bytes : List UInt8}
    (h : encodeColumnMetadata metadata = .ok bytes) : Fits bytes := by
  simp only [encodeColumnMetadata, bind_ok, tryU16_ok, tryU32_ok, pure_ok] at h
  obtain ⟨_, -, nameLen, hname, codecLen, hcodec, statsLen, hstats, rfl⟩ := h
  have hname' := nameLen.toNat_lt
  have hcodec' := codecLen.toNat_lt
  have hstats' := statsLen.toNat_lt
  simp only [Fits, wordSize, List.length_append, length_le16, length_le32, length_le64,
    List.length_singleton]
  omega

/-- No record is a proper prefix of another one. -/
theorem encodeColumnMetadata_prefix {metadata metadata' : ColumnChunkMetadata}
    {bytes bytes' : List UInt8} (h : encodeColumnMetadata metadata = .ok bytes)
    (h' : encodeColumnMetadata metadata' = .ok bytes') (hpre : bytes' <+: bytes) :
    bytes' = bytes := by
  have hfit := encodeColumnMetadata_fits h
  have hdec := (decodeColumnMetadata_ok hfit).2 ⟨bytes, h, List.prefix_rfl, rfl⟩
  have hdec' := (decodeColumnMetadata_ok hfit).2 ⟨bytes', h', hpre, rfl⟩
  rw [hdec] at hdec'
  obtain ⟨-, hlen⟩ := Prod.mk.inj (Except.ok.inj hdec')
  exact hpre.eq_of_length hlen.symm

/-- **Records are canonical and self-delimiting**: a record is read from the front of its encoding,
whatever is behind it; what is read is encoded as the bytes that it was read from; and nothing is
read from a part of an encoding. -/
theorem decodeColumnMetadata_canonical {data : List UInt8} (hfit : Fits data) :
    (∀ metadata bytes rest, encodeColumnMetadata metadata = .ok bytes → data = bytes ++ rest →
      decodeColumnMetadata data = .ok (metadata, bytes.length)) ∧
    (∀ metadata n, decodeColumnMetadata data = .ok (metadata, n) →
      n ≤ data.length ∧ encodeColumnMetadata metadata = .ok (data.take n)) ∧
    ((∃ p, decodeColumnMetadata data = .ok p) ↔ ∃ metadata bytes,
      validateColumnMetadata metadata = .ok () ∧ encodeColumnMetadata metadata = .ok bytes ∧
        bytes <+: data) ∧
    ∀ metadata bytes, encodeColumnMetadata metadata = .ok bytes → data <+: bytes → data ≠ bytes →
      ∃ e, decodeColumnMetadata data = .error e := by
  refine ⟨?_, ?_, ?_, ?_⟩
  · rintro metadata bytes rest henc rfl
    exact (decodeColumnMetadata_ok hfit).2 ⟨bytes, henc, List.prefix_append _ _, rfl⟩
  · intro metadata n hdec
    obtain ⟨bytes, henc, hpre, rfl⟩ := (decodeColumnMetadata_ok hfit).1 hdec
    exact ⟨hpre.length_le, by rw [← List.prefix_iff_eq_take.1 hpre, henc]⟩
  · constructor
    · rintro ⟨⟨metadata, n⟩, hdec⟩
      obtain ⟨bytes, henc, hpre, -⟩ := (decodeColumnMetadata_ok hfit).1 hdec
      exact ⟨metadata, bytes, validateColumnMetadata_ok.2 (encodeColumnMetadata_valid henc), henc,
        hpre⟩
    · rintro ⟨metadata, bytes, -, henc, hpre⟩
      exact ⟨_, (decodeColumnMetadata_ok hfit).2 ⟨bytes, henc, hpre, rfl⟩⟩
  · intro metadata bytes henc hpre hne
    rw [exists_error_iff]
    rintro ⟨metadata', n⟩ hdec
    obtain ⟨bytes', henc', hpre', -⟩ := (decodeColumnMetadata_ok hfit).1 hdec
    obtain rfl := encodeColumnMetadata_prefix henc henc' (hpre'.trans hpre)
    exact hne (hpre.eq_of_length (le_antisymm hpre.length_le hpre'.length_le))

/-- A record with a byte behind it. -/
theorem decodeColumnMetadata_canonical_bool : ∃ metadata bytes,
    encodeColumnMetadata metadata = .ok bytes ∧
      decodeColumnMetadata (bytes ++ [7]) = .ok (metadata, bytes.length) := by
  let metadata : ColumnChunkMetadata :=
    ⟨"active", .bool, true, .bitmap, 3, 1, 3, 2, [], []⟩
  have hvalid : metadata.Valid := (validateColumnMetadata_ok (u := ())).1 (by decide)
  obtain ⟨bytes, henc, hlen⟩ :=
    exists_encodeColumnMetadata hvalid (by decide) (by decide) (by decide)
  refine ⟨metadata, bytes, henc, ?_⟩
  have hfit : Fits (bytes ++ [7]) := by
    rw [Fits, List.length_append, hlen]
    decide
  exact (decodeColumnMetadata_canonical hfit).1 metadata bytes [7] henc rfl

end V3

end CompactCore.Format
