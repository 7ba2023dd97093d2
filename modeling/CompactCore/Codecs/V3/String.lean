/-
**`CMP3` string columns.**

A string payload is the validity bitmap of a nullable column and the encoded values: stored one
after the other, with the prefix they share with their predecessor left out, as numbers of a
dictionary, or stored and run-length encoded.

Main definitions:

* `CompactCore.Codecs.V3.encodeStringColumn`, `CompactCore.Codecs.V3.decodeStringColumn` — the two
  directions.

Main results:

* `CompactCore.Codecs.V3.StringColumn.decodePrefix_encodePrefix` — prefix coding inverts itself;
* `CompactCore.Codecs.V3.StringColumn.decodeValues_encodeValues` — so does every codec;
* `CompactCore.Codecs.V3.decodeStringColumn_encode` — **an encoded column decodes to the cells of
  its rows**;
* `CompactCore.Codecs.V3.decodeStringColumn_counts` — a decoded column has the counts of its
  metadata.
-/

import CompactCore.Codecs.Dictionary
import CompactCore.Codecs.V3.Nullable
import CompactCore.Primitives.Rle
import CompactCore.Statistics
import Mathlib.Algebra.Order.BigOperators.Group.List
import Mathlib.Data.List.Dedup

set_option relaxedAutoImplicit false
set_option autoImplicit false

namespace CompactCore.Codecs.V3

open Wire CompactError Format.V3
open Io (valueOf)

namespace StringColumn

def texts : CellTexts where
  mustNotBeNull := "required string column must not be null"
  missing := "jsonl row missing required string column"
  wrongType := "jsonl string column must be string or null"

def stringTexts : Strings.Texts where
  tooLarge := "cmp3 string length is too large"
  overflow := "cmp3 string length overflow"
  truncated := "cmp3 string payload is truncated"
  notUtf8 := "cmp3 string must be utf-8"

def maxDictionaryEntries : ℕ := 4096

def implemented : SchemaCodec → Bool
  | .prefixCodec | .dictionary | .rle | .stored => true
  | _ => false

def validateColumn (column : ColumnSchema) : Result Unit :=
  failIf (column.valueType ≠ .string ∨ implemented column.codec = false)
    (unsupported "cmp3 string encoder requires implemented string codec")

def collectValues (column : ColumnSchema) (rows : List Map) : Result (List Bool × List String) :=
  collectCells texts Value.asStr column rows

def countU64 (value : ℕ) : Result UInt64 := tryU64 value "cmp3 string size is too large"

def readBytes : ℕ → Reader CompactError (List UInt8) :=
  readExact (invalidInput "cmp3 string length overflow")
    (invalidInput "cmp3 string payload is truncated")

/-! ### Encoding values -/

def encodeStored (values : List String) : Result (List UInt8) :=
  Strings.encodeAll "cmp3 string size is too large" values

/-- The number of leading bytes that two byte strings share. -/
def sharedPrefix (previous bytes : List UInt8) : ℕ :=
  ((previous.zip bytes).takeWhile fun pair => pair.1 == pair.2).length

/-- The loop of `encode_prefix`, after `previous`. -/
def encodePrefixFrom : List UInt8 → List String → Result (List UInt8)
  | _, [] => .ok []
  | previous, value :: values => do
      let bytes := asBytes value
      let shared := sharedPrefix previous bytes
      let suffix := bytes.drop shared
      let sharedLen ← countU64 shared
      let suffixLen ← countU64 suffix.length
      let out ← encodePrefixFrom bytes values
      return Varint.encodeU64 [sharedLen, suffixLen] ++ (suffix ++ out)

def encodePrefix (values : List String) : Result (List UInt8) := encodePrefixFrom [] values

def newDictionaryId (len : ℕ) : Result UInt64 := do
  failIf (maxDictionaryEntries ≤ len) (unsupported "cmp3 dictionary cardinality limit exceeded")
  countU64 len

def encodeDictionary (values : List String) : Result (List UInt8) := do
  let s ← Dictionary.internAll newDictionaryId values
  let len ← countU64 s.dictionary.length
  let entries ← encodeStored s.dictionary
  return Varint.encodeU64 [len] ++ entries ++ Varint.encodeU64 s.ids

def encodeValues (codec : SchemaCodec) (values : List String) : Result (List UInt8) :=
  match codec with
  | .prefixCodec => encodePrefix values
  | .dictionary => encodeDictionary values
  | .rle => do
      let raw ← encodeStored values
      return Rle.encodeRle raw
  | .stored => encodeStored values
  | _ => .error (unsupported "cmp3 string encoder requires implemented string codec")

/-- The bytes of all values, without their lengths. -/
def sumSizes (values : List String) : Result UInt64 :=
  values.foldlM (fun total value => okOr (invalidInput "cmp3 string raw size overflow")
    (checkedAdd total (UInt64.ofNat (asBytes value).length))) 0

/-! ### Decoding values -/

def decodeStored (data : List UInt8) (count : ℕ) : Result (List String) := do
  let (values, cursor) ← Strings.readCount stringTexts count data 0
  failIf (cursor ≠ data.length) (invalidInput "cmp3 string payload has trailing bytes")
  return values

/-- One string of `decode_prefix`, after `previous`. -/
def readPrefixed (previous : List UInt8) : Reader CompactError (List UInt8 × String) := do
  let shared ← Varint.readU64
  let shared ← tryUsize shared "cmp3 prefix length is too large"
  let suffixLen ← Varint.readU64
  let suffixLen ← tryUsize suffixLen "cmp3 suffix length is too large"
  failIf (previous.length < shared) (invalidInput "cmp3 prefix exceeds previous string")
  let suffix ← readBytes suffixLen
  let current := previous.take shared ++ suffix
  let value ← okOr (invalidInput "cmp3 string must be utf-8") (fromUtf8 current)
  return (current, value)

/-- The loop of `decode_prefix`. -/
def readPrefixes : List UInt8 → ℕ → Reader CompactError (List String)
  | _, 0 => pure []
  | previous, count + 1 => do
      let (current, value) ← readPrefixed previous
      let values ← readPrefixes current count
      return value :: values

def decodePrefix (data : List UInt8) (count : ℕ) : Result (List String) := do
  let (values, cursor) ← readPrefixes [] count data 0
  failIf (cursor ≠ data.length) (invalidInput "cmp3 prefix payload has trailing bytes")
  return values

/-- The head of a dictionary: its length and its strings. -/
def readDictionary : Reader CompactError (List String) := do
  let dictionaryCount ← Varint.readU64
  let dictionaryCount ← tryUsize dictionaryCount "cmp3 dictionary is too large"
  failIf (maxDictionaryEntries < dictionaryCount)
    (invalidInput "cmp3 dictionary cardinality limit exceeded")
  Strings.readCount stringTexts dictionaryCount

def decodeDictionary (data : List UInt8) (count : ℕ) : Result (List String) := do
  let (dictionary, cursor) ← readDictionary data 0
  let ids ← Varint.decodeU64 (data.drop cursor)
  failIf (ids.length ≠ count) (invalidInput "cmp3 dictionary id count mismatch")
  Dictionary.lookupAll "cmp3 dictionary id is too large" "cmp3 dictionary id out of range"
    dictionary ids

/-- The run-length decoder is bounded by the size that the metadata declares. -/
def decodeRleStored (rawSize : UInt64) (valuesPayload : List UInt8) (nonNullCount : ℕ) :
    Result (List String) := do
  let rawSize ← tryUsize rawSize "cmp3 string raw size is too large"
  let prefixBytes ← okOr (invalidInput "cmp3 string size overflow") (usizeMul nonNullCount 10)
  let maxEncodedValues ← okOr (invalidInput "cmp3 string size overflow")
    (usizeAdd rawSize prefixBytes)
  let raw ← Rle.decodeRleBounded valuesPayload (min maxEncodedValues maxDecodedBytes)
  decodeStored raw nonNullCount

def decodeValues (codec : SchemaCodec) (rawSize : UInt64) (valuesPayload : List UInt8)
    (nonNullCount : ℕ) : Result (List String) :=
  match codec with
  | .prefixCodec => decodePrefix valuesPayload nonNullCount
  | .dictionary => decodeDictionary valuesPayload nonNullCount
  | .rle => decodeRleStored rawSize valuesPayload nonNullCount
  | .stored => decodeStored valuesPayload nonNullCount
  | _ => .error (invalidInput "cmp3 string metadata has incompatible codec")

def validateMetadata (metadata : ColumnChunkMetadata) (payload : List UInt8) : Result Unit := do
  failIf (metadata.valueType ≠ .string ∨ implemented metadata.codec = false)
    (invalidInput "cmp3 string metadata has incompatible type or codec")
  failIf (metadata.codecMetadata.length ≠ 8 ∨ metadata.valueCount < metadata.nullCount ∨
      metadata.nullable = false ∧ metadata.nullCount ≠ 0)
    (invalidInput "cmp3 string metadata is invalid")
  let count := u64OfLe metadata.codecMetadata
  failIf (count ≠ metadata.valueCount - metadata.nullCount)
    (invalidInput "cmp3 string codec metadata count mismatch")
  let payloadLen ← countU64 payload.length
  failIf (metadata.compressedSize ≠ payloadLen)
    (invalidInput "cmp3 string payload size does not match metadata")

end StringColumn

open StringColumn in
def encodeStringColumn (column : ColumnSchema) (rows : List Map) : Result EncodedColumnChunk := do
  validateColumn column
  let (validity, values) ← collectValues column rows
  let nullCount := validity.count false
  let encodedValues ← encodeValues column.codec values
  let payload := withValidity column.nullable validity encodedValues
  let distinctCount := values.dedup.length
  let rawSize ← sumSizes values
  let valueCount ← countU64 rows.length
  let nullCount ← countU64 nullCount
  let compressedSize ← countU64 payload.length
  let nonNullCount ← countU64 values.length
  let distinctCount ← countU64 distinctCount
  return {
    metadata := {
      name := column.name
      valueType := .string
      nullable := column.nullable
      codec := column.codec
      valueCount := valueCount
      nullCount := nullCount
      rawSize := rawSize
      compressedSize := compressedSize
      codecMetadata := le64 nonNullCount
      statisticsMetadata := Statistics.encodeString distinctCount }
    payload := payload }

open StringColumn in
def decodeStringColumn (metadata : ColumnChunkMetadata) (payload : List UInt8) :
    Result (List (Option String)) := do
  validateMetadata metadata payload
  let valueCount ← tryUsize metadata.valueCount "cmp3 string value count is too large"
  failIf (maxDecodedValues < valueCount)
    (invalidInput "cmp3 string value count exceeds configured limit")
  let nonNullCount ←
    tryUsize (metadata.valueCount - metadata.nullCount) "cmp3 string value count is too large"
  let (validityPayload, valuesPayload) ←
    splitValidity "cmp3 string validity bitmap is truncated" metadata.nullable valueCount payload
  failIf (metadata.codec ≠ .rle ∧ valuesPayload.length < nonNullCount)
    (invalidInput "cmp3 string payload cannot contain declared values")
  let validity ← decodeValidity metadata.nullable valueCount nonNullCount validityPayload
  let values ← decodeValues metadata.codec metadata.rawSize valuesPayload nonNullCount
  let (decoded, _) ← restoreNulls "cmp3 string payload is missing values" validity values
  return decoded

/-! ### Counts -/

theorem decodeStringColumn_limit {metadata : ColumnChunkMetadata} {payload : List UInt8}
    {cells : List (Option String)} (h : decodeStringColumn metadata payload = .ok cells) :
    metadata.valueCount.toNat ≤ maxDecodedValues := by
  simp only [decodeStringColumn, bind_ok, tryUsize_eq, Except.ok.injEq, failIf_ok, Nat.not_lt,
    exists_eq_left'] at h
  obtain ⟨_, -, _, hle, -⟩ := h
  exact hle

/-- A decoded column has the counts of its metadata. -/
theorem decodeStringColumn_counts {metadata : ColumnChunkMetadata} {payload : List UInt8}
    {cells : List (Option String)} (h : decodeStringColumn metadata payload = .ok cells) :
    cells.length = metadata.valueCount.toNat ∧
      (cells.map Option.isSome).count false = metadata.nullCount.toNat := by
  simp only [decodeStringColumn, bind_ok, tryUsize_eq, Except.ok.injEq, failIf_ok, Prod.exists,
    pure_ok, exists_eq_left'] at h
  obtain ⟨_, hvalid, _, -, _, _, -, _, -, _, hvalidity, _, -, _, _, hrestore, rfl⟩ := h
  obtain ⟨hlen, hnull⟩ := restored_counts hvalidity hrestore
  have hle : metadata.nullCount ≤ metadata.valueCount := by
    simp only [StringColumn.validateMetadata, bind_ok, failIf_ok, not_or, UInt64.not_lt] at hvalid
    obtain ⟨_, -, _, ⟨-, hle, -⟩, -⟩ := hvalid
    exact hle
  have hcount := UInt64.toNat_sub_of_le _ _ hle
  rw [UInt64.le_iff_toNat_le] at hle
  exact ⟨hlen, by omega⟩

/-! ### Every codec inverts itself -/

namespace StringColumn

theorem countU64_ok {n : ℕ} {v : UInt64} : countU64 n = .ok v ↔ v.toNat = n := tryU64_ok

theorem decodeStored_encodeStored {values : List String} {data : List UInt8}
    (h : encodeStored values = .ok data) (hfit : Fits data) :
    decodeStored data values.length = .ok values := by
  obtain ⟨-, rfl⟩ := Strings.encodeAll_ok.1 h
  simp only [decodeStored, bind_ok, Prod.exists, failIf_ok, not_not, pure_ok]
  refine ⟨values, _, (Strings.readCount_ok hfit (Nat.zero_le _)).2 ⟨rfl, at_self _, rfl⟩, (), ?_,
    rfl⟩
  rw [Nat.zero_add]

theorem sharedPrefix_le_left (previous bytes : List UInt8) :
    sharedPrefix previous bytes ≤ previous.length := by
  have hle := (List.takeWhile_prefix (fun pair : UInt8 × UInt8 => pair.1 == pair.2)
    (l := previous.zip bytes)).length_le
  rw [List.length_zip] at hle
  exact le_trans hle (Nat.min_le_left ..)

theorem sharedPrefix_le_right (previous bytes : List UInt8) :
    sharedPrefix previous bytes ≤ bytes.length := by
  have hle := (List.takeWhile_prefix (fun pair : UInt8 × UInt8 => pair.1 == pair.2)
    (l := previous.zip bytes)).length_le
  rw [List.length_zip] at hle
  exact le_trans hle (Nat.min_le_right ..)

/-- The shared bytes are the same in both strings. -/
theorem take_sharedPrefix (previous bytes : List UInt8) :
    previous.take (sharedPrefix previous bytes) = bytes.take (sharedPrefix previous bytes) := by
  induction previous generalizing bytes with
  | nil => simp [sharedPrefix]
  | cons a previous ih =>
      cases bytes with
      | nil => simp [sharedPrefix]
      | cons b bytes =>
          rw [sharedPrefix, List.zip_cons_cons, List.takeWhile_cons]
          split
          · rename_i hab
            obtain rfl : a = b := eq_of_beq hab
            rw [List.length_cons, List.take_succ_cons, List.take_succ_cons]
            exact congrArg _ (ih bytes)
          · rfl

/-- The loop of the prefix decoder inverts the loop of the encoder, from any predecessor on. -/
theorem readPrefixes_encodePrefixFrom {values : List String} {previous out data : List UInt8}
    {c : ℕ} (hfit : Fits data) (h : encodePrefixFrom previous values = .ok out)
    (hat : At data c out) :
    readPrefixes previous values.length data c = .ok (values, c + out.length) := by
  induction values generalizing previous out c with
  | nil =>
      obtain rfl : [] = out := by simpa [encodePrefixFrom] using h
      rfl
  | cons value values ih =>
      simp only [encodePrefixFrom, bind_ok, countU64_ok, pure_ok] at h
      obtain ⟨sharedLen, hshared, suffixLen, hsuffix, rest, hrest, rfl⟩ := h
      have hhead : Varint.encodeU64 [sharedLen, suffixLen] =
          Varint.encodeOne sharedLen ++ Varint.encodeOne suffixLen := by simp
      rw [hhead, at_append, at_append, at_append] at hat
      obtain ⟨⟨h₁, h₂⟩, h₃, h₄⟩ := hat
      have hcurrent : previous.take sharedLen.toNat ++ (asBytes value).drop sharedLen.toNat =
          asBytes value := by
        rw [hshared, take_sharedPrefix, List.take_append_drop]
      have hle : ¬previous.length < sharedLen.toNat := by
        have := sharedPrefix_le_left previous (asBytes value)
        omega
      rw [← hshared] at h₃ hsuffix
      simp only [List.length_cons, readPrefixes, readPrefixed, readBytes, Reader.bind_ok,
        Prod.exists, Varint.readU64_ok, Reader.lift_ok, tryUsize_eq, Except.ok.injEq, failIf_ok,
        readExact_ok hfit, okOr_ok, fromUtf8_eq_some, Reader.pure_ok, Prod.mk.injEq]
      refine ⟨_, value, _, ⟨sharedLen, _, ⟨h₁, rfl⟩, _, _, ⟨rfl, rfl⟩, suffixLen, _, ⟨h₂, rfl⟩, _,
        _, ⟨rfl, rfl⟩, (), _, ⟨hle, rfl⟩, _, _, ⟨?_, hsuffix.symm, rfl⟩, value, _, ⟨hcurrent, rfl⟩,
        ⟨rfl, rfl⟩, rfl⟩, values, _, ?_, rfl, rfl⟩
      · rw [List.length_append, ← Nat.add_assoc] at h₃
        exact h₃
      · rw [hcurrent]
        rw [List.length_append, ← hshared, ← Nat.add_assoc] at h₄
        rw [hsuffix, ih hrest h₄, hhead]
        simp only [List.length_append, ← hshared]
        congr 2
        omega

/-- **Prefix coding inverts itself.** -/
theorem decodePrefix_encodePrefix {values : List String} {data : List UInt8}
    (h : encodePrefix values = .ok data) (hfit : Fits data) :
    decodePrefix data values.length = .ok values := by
  have hread := readPrefixes_encodePrefixFrom hfit h (at_self data)
  simp only [decodePrefix, bind_ok, Prod.exists, failIf_ok, not_not, pure_ok]
  exact ⟨values, _, hread, (), Nat.zero_add _, rfl⟩

theorem newDictionaryId_ok {n : ℕ} {id : UInt64} :
    newDictionaryId n = .ok id ↔ n < maxDictionaryEntries ∧ id.toNat = n := by
  simp [newDictionaryId, countU64_ok]

theorem decodeDictionary_encodeDictionary {values : List String} {data : List UInt8}
    (h : encodeDictionary values = .ok data) (hfit : Fits data) :
    decodeDictionary data values.length = .ok values := by
  simp only [encodeDictionary, bind_ok, countU64_ok, encodeStored, Strings.encodeAll_ok,
    pure_ok] at h
  obtain ⟨s, hs, len, hlen, entries, ⟨-, rfl⟩, rfl⟩ := h
  have hlenEq : len = UInt64.ofNat s.dictionary.length := by
    rw [← hlen, UInt64.ofNat_toNat]
  subst hlenEq
  obtain ⟨hn, k, k', hhead, hentries, hids⟩ :=
    Dictionary.payload_read stringTexts
      (show Fits (Dictionary.payload s.dictionary s.ids) from hfit)
  have hmax : s.dictionary.length ≤ maxDictionaryEntries :=
    Dictionary.internAll_length_le (fun n id hid => (newDictionaryId_ok.1 hid).1) hs
  have hids_len : s.ids.length = values.length :=
    (Dictionary.internAll_holds (fun n id hid => (newDictionaryId_ok.1 hid).2) hs).ids_eq.length_eq
  show decodeDictionary (Dictionary.payload s.dictionary s.ids) values.length = .ok values
  simp only [decodeDictionary, bind_ok, Prod.exists, readDictionary, Reader.bind_ok,
    Reader.lift_ok, tryUsize_eq, Except.ok.injEq, failIf_ok, Nat.not_lt, not_not,
    Varint.decodeU64_ok]
  refine ⟨s.dictionary, k', ⟨_, k, hhead, _, k, ⟨hn, rfl⟩, (), k, ⟨hmax, rfl⟩, hentries⟩, s.ids,
    hids, (), hids_len, ?_⟩
  exact Dictionary.lookupAll_internAll (fun n id hid => (newDictionaryId_ok.1 hid).2) hs _ _

/-- The sizes that the encoder adds up. -/
theorem sumSizes_toNat {values : List String} {total : UInt64} (h : sumSizes values = .ok total)
    (hlt : ∀ value ∈ values, (asBytes value).length < wordSize) :
    total.toNat = (values.map fun value => (asBytes value).length).sum := by
  have hinv := foldlM_invariant
    (P := fun (done : List String) (total : UInt64) =>
      (∀ value ∈ done, (asBytes value).length < wordSize) →
        total.toNat = (done.map fun value => (asBytes value).length).sum)
    ?_ (fun _ => rfl) h
  · exact hinv hlt
  · intro done value total total' ih hstep hdone
    rw [okOr_ok, checkedAdd_eq_some] at hstep
    have hvalue := hdone value (by simp)
    have hn : (UInt64.ofNat (asBytes value).length).toNat = (asBytes value).length := by
      exact toNat_ofNat hvalue
    rw [hstep, hn, ih fun v hv => hdone v (by simp [hv])]
    simp

theorem length_stored_le (values : List String) :
    (values.flatMap Strings.lenPrefixed).length ≤
      (values.map fun value => (asBytes value).length).sum + values.length * 10 := by
  induction values with
  | nil => simp
  | cons value values ih =>
      have hle := Strings.length_lenPrefixed_le value
      rw [List.flatMap_cons, List.length_append, List.map_cons, List.sum_cons, List.length_cons]
      omega

/-- Run-length encoded strings are read back when their stored form stays within the limit. -/
theorem decodeRleStored_encode {values : List String} {raw : List UInt8} {rawSize : UInt64}
    (henc : encodeStored values = .ok raw) (hsize : sumSizes values = .ok rawSize)
    (hcount : values.length ≤ maxDecodedValues) (hmax : raw.length ≤ maxDecodedBytes) :
    decodeRleStored rawSize (Rle.encodeRle raw) values.length = .ok values := by
  have hfit : Fits raw := lt_of_le_of_lt hmax (by decide)
  have hstored := decodeStored_encodeStored henc hfit
  obtain ⟨hlt, rfl⟩ := Strings.encodeAll_ok.1 henc
  have htotal := sumSizes_toNat hsize hlt
  have hle := length_stored_le values
  have hge : (values.map fun value => (asBytes value).length).sum ≤
      (values.flatMap Strings.lenPrefixed).length := by
    clear henc hsize hcount hmax hfit hstored hlt htotal hle
    induction values with
    | nil => simp
    | cons value values ih =>
        rw [List.flatMap_cons, List.length_append, List.map_cons, List.sum_cons,
          Strings.lenPrefixed, List.length_append]
        omega
  have hmul : values.length * 10 < wordSize := by
    have : maxDecodedValues * 10 < wordSize := by decide
    omega
  have hadd : rawSize.toNat + values.length * 10 < wordSize := by
    have : maxDecodedBytes + maxDecodedValues * 10 < wordSize := by decide
    omega
  simp only [decodeRleStored, bind_ok, tryUsize_eq, Except.ok.injEq, okOr_ok, usizeMul_eq_some,
    usizeAdd_eq_some]
  refine ⟨_, rfl, _, ⟨hmul, rfl⟩, _, ⟨hadd, rfl⟩, _,
    Rle.decodeRleBounded_encodeRle (le_min (by omega) hmax) hfit, hstored⟩

/-- **Every codec inverts itself.** -/
theorem decodeValues_encodeValues {codec : SchemaCodec} {values : List String}
    {payload : List UInt8} {rawSize : UInt64} (h : encodeValues codec values = .ok payload)
    (hsize : sumSizes values = .ok rawSize) (hcount : values.length ≤ maxDecodedValues)
    (hfit : Fits payload) (hmax : codec = .rle →
      (values.flatMap Strings.lenPrefixed).length ≤ maxDecodedBytes) :
    decodeValues codec rawSize payload values.length = .ok values := by
  unfold encodeValues at h
  split at h
  · exact decodePrefix_encodePrefix h hfit
  · exact decodeDictionary_encodeDictionary h hfit
  · simp only [bind_ok, pure_ok] at h
    obtain ⟨raw, hraw, rfl⟩ := h
    refine decodeRleStored_encode hraw hsize hcount ?_
    rw [(Strings.encodeAll_ok.1 hraw).2]
    exact hmax rfl
  · exact decodeStored_encodeStored h hfit
  · cases h

/-- Except for runs, every value takes at least a byte. -/
theorem length_le_encodeValues {codec : SchemaCodec} {values : List String} {payload : List UInt8}
    (h : encodeValues codec values = .ok payload) (hcodec : codec ≠ .rle) :
    values.length ≤ payload.length := by
  unfold encodeValues at h
  split at h
  · -- the prefix codec writes two varints for every value
    unfold encodePrefix at h
    generalize ([] : List UInt8) = previous at h
    clear hcodec
    induction values generalizing previous payload with
    | nil => simp
    | cons value values ih =>
        simp only [encodePrefixFrom, bind_ok, pure_ok] at h
        obtain ⟨sharedLen, -, suffixLen, -, rest, hrest, rfl⟩ := h
        have hlen := ih _ hrest
        have hpos := Varint.length_encodeOne_pos sharedLen
        simp only [Varint.encodeU64_cons, List.length_append, List.length_cons]
        omega
  · simp only [encodeDictionary, bind_ok, pure_ok] at h
    obtain ⟨s, hs, len, -, entries, -, rfl⟩ := h
    have hids : s.ids.length = values.length :=
      (Dictionary.internAll_holds
        (fun n id hid => (newDictionaryId_ok.1 hid).2) hs).ids_eq.length_eq
    have hge := Varint.length_encodeU64_ge s.ids
    rw [List.length_append]
    omega
  · exact absurd rfl hcodec
  · rw [(Strings.encodeAll_ok.1 h).2]
    exact Strings.length_flatMap_lenPrefixed_ge values
  · cases h

/-! ### When a codec takes the values -/

/-- The bytes of some strings. -/
def totalBytes (values : List String) : ℕ :=
  (values.map fun value => (asBytes value).length).sum

theorem length_le_totalBytes {values : List String} {value : String} (h : value ∈ values) :
    (asBytes value).length ≤ totalBytes values :=
  List.single_le_sum (by simp) _ (List.mem_map_of_mem h)

theorem exists_countU64 {n : ℕ} (h : n < 2 ^ 64) : ∃ v, countU64 n = .ok v :=
  ⟨UInt64.ofNat n, countU64_ok.2 (toNat_ofNat h)⟩

theorem exists_encodePrefixFrom {values : List String} (previous : List UInt8)
    (h : ∀ value ∈ values, (asBytes value).length < 2 ^ 64) :
    ∃ out, encodePrefixFrom previous values = .ok out := by
  induction values generalizing previous with
  | nil => exact ⟨[], rfl⟩
  | cons value values ih =>
      obtain ⟨hvalue, hrest⟩ := List.forall_mem_cons.1 h
      have hshared := sharedPrefix_le_right previous (asBytes value)
      obtain ⟨sharedLen, hsharedLen⟩ := exists_countU64 (lt_of_le_of_lt hshared hvalue)
      obtain ⟨suffixLen, hsuffixLen⟩ := exists_countU64
        (n := ((asBytes value).drop (sharedPrefix previous (asBytes value))).length) (by
          rw [List.length_drop]
          omega)
      obtain ⟨out, hout⟩ := ih (asBytes value) hrest
      simp only [encodePrefixFrom, bind_ok, pure_ok]
      exact ⟨_, sharedLen, hsharedLen, suffixLen, hsuffixLen, out, hout, rfl⟩

/-- **A codec takes any values**, if there are not too many distinct ones for a dictionary. -/
theorem exists_encodeValues {codec : SchemaCodec} {values : List String}
    (himpl : implemented codec = true) (hmem : totalBytes values < 2 ^ 64) :
    (∃ payload, encodeValues codec values = .ok payload) ↔
      (codec = .dictionary → values.dedup.length ≤ maxDictionaryEntries) := by
  have hall : ∀ value ∈ values, (asBytes value).length < 2 ^ 64 := fun value hvalue =>
    lt_of_le_of_lt (length_le_totalBytes hvalue) hmem
  have hstored : encodeStored values = .ok (values.flatMap Strings.lenPrefixed) :=
    Strings.encodeAll_ok.2 ⟨hall, rfl⟩
  cases codec with
  | prefixCodec => simpa [encodeValues, encodePrefix] using exists_encodePrefixFrom [] hall
  | rle => simp [encodeValues, hstored]
  | stored => simp [encodeValues, hstored]
  | dictionary =>
      have hnew : ∀ n, (∃ id, newDictionaryId n = .ok id) ↔ n < maxDictionaryEntries := by
        intro n
        simp only [newDictionaryId_ok]
        constructor
        · rintro ⟨id, hlt, -⟩
          exact hlt
        · intro hlt
          exact ⟨_, hlt, toNat_ofNat (lt_trans hlt (by decide))⟩
      rw [forall_prop_of_true rfl, ← Dictionary.exists_internAll_iff hnew]
      simp only [encodeValues, encodeDictionary, bind_ok, pure_ok]
      constructor
      · rintro ⟨payload, s, hs, -⟩
        exact ⟨s, hs⟩
      · rintro ⟨s, hs⟩
        have hsub := Dictionary.internAll_sublist hs
        obtain ⟨len, hlen⟩ := exists_countU64 (n := s.dictionary.length)
          (lt_of_le_of_lt (Dictionary.internAll_length_le (fun n id hid =>
            (newDictionaryId_ok.1 hid).1) hs) (by decide))
        exact ⟨_, s, hs, len, hlen, _,
          Strings.encodeAll_ok.2 ⟨fun value hvalue => hall value (hsub.subset hvalue), rfl⟩, rfl⟩
  | auto | bitmap | bitpack | deltaBitpack | deltaVarintU64 => cases himpl

theorem length_encodePrefixFrom_le {values : List String} {previous out : List UInt8}
    (h : encodePrefixFrom previous values = .ok out) :
    out.length ≤ totalBytes values + 20 * values.length := by
  induction values generalizing previous out with
  | nil =>
      cases h
      exact Nat.zero_le _
  | cons value values ih =>
      simp only [encodePrefixFrom, bind_ok, pure_ok] at h
      obtain ⟨sharedLen, -, suffixLen, -, rest, hrest, rfl⟩ := h
      have hlen := ih hrest
      have hhead := Varint.length_encodeU64_le [sharedLen, suffixLen]
      simp only [totalBytes, List.map_cons, List.sum_cons, List.length_cons, List.length_nil,
        List.length_append, List.length_drop] at hlen hhead ⊢
      omega

/-- The encoded values take no more than twice the memory of the strings, besides their lengths. -/
theorem length_encodeValues_le {codec : SchemaCodec} {values : List String} {payload : List UInt8}
    (h : encodeValues codec values = .ok payload) :
    payload.length ≤ 2 * totalBytes values + 20 * values.length + 10 := by
  have hstored : ∀ values : List String, (values.flatMap Strings.lenPrefixed).length ≤
      totalBytes values + values.length * 10 := length_stored_le
  unfold encodeValues at h
  split at h
  · have hle := length_encodePrefixFrom_le h
    omega
  · simp only [encodeDictionary, encodeStored, Strings.encodeAll_ok, bind_ok, pure_ok] at h
    obtain ⟨s, hs, len, -, _, ⟨-, rfl⟩, rfl⟩ := h
    have hids : s.ids.length = values.length :=
      (Dictionary.internAll_holds
        (fun n id hid => (newDictionaryId_ok.1 hid).2) hs).ids_eq.length_eq
    have hsub := Dictionary.internAll_sublist hs
    have hbytes : totalBytes s.dictionary ≤ totalBytes values :=
      (hsub.map _).sum_le_sum (by simp)
    have hlen := hsub.length_le
    have hle := hstored s.dictionary
    have hhead := Varint.length_encodeU64_le [len]
    have hrest := Varint.length_encodeU64_le s.ids
    simp only [List.length_append, List.length_cons, List.length_nil] at hhead ⊢
    omega
  · simp only [encodeStored, Strings.encodeAll_ok, bind_ok, pure_ok] at h
    obtain ⟨_, ⟨-, rfl⟩, rfl⟩ := h
    have hle := hstored values
    have hrle := Rle.length_encodeRle_le (values.flatMap Strings.lenPrefixed)
    omega
  · obtain ⟨-, rfl⟩ := Strings.encodeAll_ok.1 h
    have hle := hstored values
    omega
  · cases h

theorem exists_sumSizes {values : List String} (h : totalBytes values < 2 ^ 64) :
    ∃ total, sumSizes values = .ok total := by
  refine (exists_foldlM (P := fun done (total : UInt64) => total.toNat = totalBytes done) ?_
    rfl).imp fun _ h => h.1
  intro done value rest total hvalues htotal
  have hsum : totalBytes values =
      totalBytes done + ((asBytes value).length + totalBytes rest) := by
    rw [hvalues]
    simp [totalBytes]
  have hadd : totalBytes (done ++ [value]) = totalBytes done + (asBytes value).length := by
    simp [totalBytes]
  have hvalue : (UInt64.ofNat (asBytes value).length).toNat = (asBytes value).length :=
    toNat_ofNat (by omega)
  refine ⟨UInt64.ofNat (totalBytes (done ++ [value])), okOr_ok.2 (checkedAdd_eq_some.2 ?_), ?_⟩
  · rw [toNat_ofNat (by omega), hvalue, htotal, hadd]
  · exact toNat_ofNat (by omega)

end StringColumn

/-- **An encoded column decodes to the cells of its rows**, when it stays within the run-length
decoder's limit. -/
theorem decodeStringColumn_encode {column : ColumnSchema} {rows : List Map}
    {chunk : EncodedColumnChunk} (h : encodeStringColumn column rows = .ok chunk)
    (hmax : rows.length ≤ maxDecodedValues) (hfit : Fits chunk.payload) :
    ∃ cells, List.Forall₂ (fun row cell =>
        readCell StringColumn.texts Value.asStr column row = .ok cell) rows cells ∧
      ((column.codec = .rle →
          (cells.reduceOption.flatMap Strings.lenPrefixed).length ≤ maxDecodedBytes) →
        decodeStringColumn chunk.metadata chunk.payload = .ok cells) ∧
      ∃ distinctCount : UInt64, distinctCount.toNat = cells.reduceOption.dedup.length ∧
        chunk.metadata.statisticsMetadata = Statistics.encodeString distinctCount := by
  simp only [encodeStringColumn, bind_ok, Prod.exists, StringColumn.collectValues,
    collectCells_ok, StringColumn.countU64_ok, StringColumn.validateColumn, failIf_ok,
    pure_ok] at h
  obtain ⟨_, hcol, _, _, ⟨cells, hcells, rfl, rfl⟩, encoded, henc, rawSize, hsize, valueCount, hvc,
    nullCount, hnc, compressedSize, hcs, nonNullCount, hnn, distinctCount, hdc, rfl⟩ := h
  obtain ⟨hsum, hreq, bitmap, hsplit, hvalidity⟩ :=
    split_encoded hcells hvc hnc encoded "cmp3 string validity bitmap is truncated"
  have hlen := hcells.length_eq
  have hnon : valueCount.toNat - nullCount.toNat = cells.reduceOption.length := by omega
  have hle : nullCount ≤ valueCount := by
    rw [UInt64.le_iff_toNat_le]
    omega
  have hsub : valueCount - nullCount = nonNullCount := by
    rw [← UInt64.toNat_inj, UInt64.toNat_sub_of_le _ _ hle]
    omega
  rw [hnon, ← hnn] at hvalidity
  have himpl : StringColumn.implemented column.codec = true := by
    rw [not_or, Bool.not_eq_false] at hcol
    exact hcol.2
  have hfit' : Fits encoded := by
    refine lt_of_le_of_lt ?_ hfit
    rw [withValidity, List.length_append]
    exact Nat.le_add_left ..
  refine ⟨cells, hcells, fun hrle => ?_, distinctCount, hdc, rfl⟩
  simp only [decodeStringColumn, StringColumn.validateMetadata, bind_ok, tryUsize_eq,
    Except.ok.injEq, failIf_ok, Nat.not_lt, Prod.exists, pure_ok, hsub, u64OfLe_le64, length_le64,
    StringColumn.countU64_ok, not_or, not_and, not_not, UInt64.not_lt]
  refine ⟨(), ⟨(), ⟨trivial, by rw [himpl]; simp⟩, (), ⟨trivial, hle, hreq⟩,
    (), trivial, compressedSize, hcs, rfl⟩, _, rfl, (), by omega, _, rfl, bitmap, encoded, hsplit,
    (), ?_, _, hvalidity, cells.reduceOption, ?_, cells, [], ?_, rfl⟩
  · intro hcodec
    rw [hnn]
    exact StringColumn.length_le_encodeValues henc hcodec
  · rw [hnn]
    exact StringColumn.decodeValues_encodeValues henc hsize (by omega) hfit' hrle
  · exact restoreNulls_ok.2 ⟨rfl, (List.append_nil _).symm⟩

/-- Runs are decoded only up to the run-length decoder's limit. -/
theorem decodeStringColumn_rle_limit {column : ColumnSchema} {rows : List Map}
    {chunk : EncodedColumnChunk} {cells' : List (Option String)}
    (h : encodeStringColumn column rows = .ok chunk) (hrle : column.codec = .rle)
    (hdec : decodeStringColumn chunk.metadata chunk.payload = .ok cells') :
    ∃ cells, List.Forall₂ (fun row cell =>
        readCell StringColumn.texts Value.asStr column row = .ok cell) rows cells ∧
      (cells.reduceOption.flatMap Strings.lenPrefixed).length ≤ maxDecodedBytes := by
  simp only [encodeStringColumn, bind_ok, Prod.exists, StringColumn.collectValues,
    collectCells_ok, StringColumn.countU64_ok, pure_ok] at h
  obtain ⟨_, -, _, _, ⟨cells, hcells, rfl, rfl⟩, encoded, henc, rawSize, -, valueCount, hvc,
    nullCount, hnc, compressedSize, -, nonNullCount, -, distinctCount, -, rfl⟩ := h
  obtain ⟨-, -, bitmap, hsplit, -⟩ :=
    split_encoded hcells hvc hnc encoded "cmp3 string validity bitmap is truncated"
  simp only [StringColumn.encodeValues, hrle, StringColumn.encodeStored, bind_ok,
    Strings.encodeAll_ok, pure_ok] at henc
  obtain ⟨raw, ⟨-, rfl⟩, rfl⟩ := henc
  refine ⟨cells, hcells, ?_⟩
  simp only [decodeStringColumn, bind_ok, tryUsize_eq, Except.ok.injEq, exists_eq_left', hsplit,
    StringColumn.decodeValues, hrle, StringColumn.decodeRleStored, okOr_ok] at hdec
  obtain ⟨_, -, _, -, _, -, _, -, _, ⟨_, -, limit, -, raw, hraw, -⟩, -⟩ := hdec
  have hle := Rle.decodeRleBounded_length_le hraw
  simp only [Rle.decodeRleBounded, bind_ok, pure_ok] at hraw
  obtain ⟨_, -, _, -, rfl⟩ := hraw
  rw [Rle.expand_encodeRle] at hle
  exact hle.trans (min_le_right ..)

/-- **When a column of strings is encoded**: the column accepts the rows, and there are not too
many distinct strings for a dictionary. -/
theorem exists_encodeStringColumn {column : ColumnSchema} {rows : List Map}
    (htype : column.valueType = .string) (himpl : StringColumn.implemented column.codec = true)
    (hmax : rows.length ≤ maxDecodedValues)
    (hmem : StringColumn.totalBytes
      (rows.map fun row => (valueOf column row).asStr).reduceOption < 2 ^ 62) :
    (∃ chunk, encodeStringColumn column rows = .ok chunk) ↔
      (∀ row ∈ rows, Accepted Value.asStr column row) ∧ (column.codec = .dictionary →
        (rows.map fun row => (valueOf column row).asStr).reduceOption.dedup.length ≤
          StringColumn.maxDictionaryEntries) := by
  have hcol : StringColumn.validateColumn column = .ok () := by
    simp [StringColumn.validateColumn, htype, himpl]
  have hnone : Value.null.asStr = none := rfl
  simp only [encodeStringColumn, StringColumn.collectValues, bind_ok, Prod.exists,
    collectCells_accepted hnone, pure_ok]
  have hcells : (rows.map fun row => (valueOf column row).asStr).length = rows.length :=
    List.length_map ..
  generalize (rows.map fun row => (valueOf column row).asStr) = cells at hcells hmem ⊢
  have hcount := count_false_add cells
  have hvalues := StringColumn.exists_encodeValues himpl (lt_trans hmem (by decide))
  constructor
  · rintro ⟨chunk, _, -, _, _, ⟨haccept, rfl, rfl⟩, encoded, henc, -⟩
    exact ⟨haccept, hvalues.1 ⟨encoded, henc⟩⟩
  · rintro ⟨haccept, hdistinct⟩
    obtain ⟨encoded, henc⟩ := hvalues.2 hdistinct
    have hsmall : maxDecodedValues * 21 + 11 < 2 ^ 62 := by decide
    have hlen := StringColumn.length_encodeValues_le henc
    have hdedup := (List.dedup_sublist cells.reduceOption).length_le
    obtain ⟨rawSize, hsize⟩ := StringColumn.exists_sumSizes (lt_trans hmem (by decide))
    obtain ⟨valueCount, hvalue⟩ := StringColumn.exists_countU64 (n := rows.length) (by omega)
    obtain ⟨nullCount, hnull⟩ :=
      StringColumn.exists_countU64 (n := (cells.map Option.isSome).count false) (by omega)
    obtain ⟨compressedSize, hcompressed⟩ := StringColumn.exists_countU64
      (n := (withValidity column.nullable (cells.map Option.isSome) encoded).length) (by
        rw [length_withValidity, List.length_map]
        split <;> omega)
    obtain ⟨nonNullCount, hnon⟩ :=
      StringColumn.exists_countU64 (n := cells.reduceOption.length) (by omega)
    obtain ⟨distinctCount, hcard⟩ :=
      StringColumn.exists_countU64 (n := cells.reduceOption.dedup.length) (by omega)
    exact ⟨_, (), hcol, _, _, ⟨haccept, rfl, rfl⟩, encoded, henc, rawSize, hsize, valueCount,
      hvalue, nullCount, hnull, compressedSize, hcompressed, nonNullCount, hnon, distinctCount,
      hcard, rfl⟩

end CompactCore.Codecs.V3
