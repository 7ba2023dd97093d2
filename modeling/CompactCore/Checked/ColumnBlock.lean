/-
**The column-block decoder as checked code.**

A column block is decoded column by column, and every count, length and number in it is a word that
its author chose.  The decoder is repeated here with every operation that may panic as a step of its
own.  All of them are behind a check, but one: a dictionary column begins with the number of its
strings, and a vector of so many strings is asked for before a single one is read.

Main definitions:

* `CompactCore.Checked.Io.decodeJsonl` — the decoder;
* `CompactCore.Checked.Io.Representable` — the vectors that a column payload makes the decoder ask
  for can be allocated;
* `CompactCore.Checked.Io.Reached` — decoding comes to a column with a given payload.

Main results:

* `CompactCore.Checked.Io.decodeDictionaryValues_totalIff`,
  `CompactCore.Checked.Io.readColumnBlocks_totalIff` — where a column and a block panic;
* `CompactCore.Checked.Io.decodeJsonl_totalIff` — **decoding panics exactly when it comes to a
  column whose vectors cannot be allocated**.
-/

import CompactCore.Checked.Primitives
import CompactCore.Io.ColumnBlock

set_option relaxedAutoImplicit false
set_option autoImplicit false

/-! ### Frames -/

namespace CompactCore.Checked.Framing

open Wire Fault CompactError
open CompactCore.Framing (Frame headerLen idToCodec)

/-- Decode and validate a v1 frame. -/
def decodeV1 [Crc32Fast] (data : List UInt8) : Outcome Frame := do
  failIf (data.length < headerLen) (error (invalidInput "frame header is truncated"))
  let magic ← sliceTo data 4
  failIf (magic ≠ magicV1) (error (invalidInput "invalid frame magic"))
  let version ← index data 4
  failIf (version ≠ versionV1) (error (unsupported "frame version"))
  let codecId ← index data 5
  let codec ← total (idToCodec codecId)
  let lenBytes ← slice data 6 14
  require (lenBytes.length = 8)
  let payloadLen ← total (tryUsize (u64OfLe lenBytes) "frame payload length is too large")
  let sumBytes ← slice data 14 18
  require (sumBytes.length = 4)
  let payloadEnd ← okOr (error (invalidInput "frame payload length overflow"))
    (usizeAdd headerLen payloadLen)
  failIf (data.length ≠ payloadEnd)
    (error (invalidInput "frame payload length does not match input"))
  let payload ← slice data headerLen payloadEnd
  failIf (¬verify payload (u32OfLe sumBytes)) (error (invalidInput "frame checksum mismatch"))
  return ⟨codec, payload⟩

theorem decodeV1_total [Crc32Fast] (data : List UInt8) :
    decodeV1 data = total (CompactCore.Framing.decodeV1 data) := by
  rw [decodeV1, CompactCore.Framing.decodeV1]
  refine total_bind_of (total_failIf _ _).symm fun _ hlen => ?_
  -- the length test covers every slice of the header
  have hlen : 18 ≤ data.length := not_lt.1 (failIf_ok.1 hlen)
  rw [ok_bind_eq (sliceTo_of (by omega))]
  refine total_bind_of (total_failIf _ _).symm fun _ _ => ?_
  rw [ok_bind_eq (index_getD 0 (by omega))]
  refine total_bind_of (total_failIf _ _).symm fun _ _ => ?_
  rw [ok_bind_eq (index_getD 0 (by omega))]
  refine total_bind_of rfl fun codec _ => ?_
  rw [ok_bind_eq (slice_of (by omega) (by omega)),
    require_bind (length_slice (by omega) (by omega))]
  refine total_bind_of rfl fun payloadLen _ => ?_
  rw [ok_bind_eq (slice_of (by omega) hlen), require_bind (length_slice (by omega) hlen)]
  refine total_bind_of (total_okOr _ _).symm fun payloadEnd hend => ?_
  have hend : headerLen + payloadLen = payloadEnd := (usizeAdd_eq_some.1 (okOr_ok.1 hend)).2
  refine total_bind_of (total_failIf _ _).symm fun _ hsame => ?_
  have hsame : data.length = payloadEnd := not_not.1 (failIf_ok.1 hsame)
  subst hend
  rw [ok_bind_eq (slice_of (Nat.le_add_right ..) hsame.ge), Nat.add_sub_cancel_left]
  exact total_bind_of (total_failIf _ _).symm fun _ _ => rfl

end CompactCore.Checked.Framing

/-! ### Columns -/

namespace CompactCore.Checked.Io

open Wire Fault CompactError
open CompactCore.Io (ColumnValues stringTexts dictionaryTexts DecodedColumn codecToId
  columnBlockMagic)

/-- The bytes of a `DecodedColumn`: a name, and values with the tag that says which they are. -/
def sizeOfDecodedColumn : ℕ := sizeOfString + 4 * 8

/-- `read_exact` with this module's overflow text. -/
def readBytes (err : String) : ℕ → CheckedReader (List UInt8) :=
  Checked.readExact (invalidInput "column block length overflow") (invalidInput err)

/-- The loop of `decode_string_values`, in at most `rounds` rounds. -/
def readStringValues (raw : List UInt8) : ℕ → ℕ → Outcome (List String)
  | 0, _ => exhausted
  | rounds + 1, cursor =>
      if cursor < raw.length then do
        let (value, cursor) ←
          Strings.readOne (readBytes stringTexts.truncated) stringTexts raw cursor
        let values ← readStringValues raw rounds cursor
        return value :: values
      else .ok []

def decodeStringValues (payload : List UInt8) : Outcome (List String) := do
  let raw ← Rle.decodeRle payload
  readStringValues raw (raw.length + 1) 0

/-- The head of a dictionary.  Nothing stands between the length that is declared and the vector
that is asked for. -/
def readDictionary : CheckedReader (List String) := do
  let dictionaryLen ← Varint.readU64
  let dictionaryLen ← liftM (total (tryUsize dictionaryLen "dictionary length is too large"))
  liftM (withCapacity sizeOfString dictionaryLen : Outcome Unit)
  let payload ← Reader.input
  Strings.readCount (readBytes dictionaryTexts.truncated) dictionaryTexts (payload.length + 1)
    dictionaryLen

def decodeDictionaryValues (payload : List UInt8) : Outcome (List String) := do
  let (dictionary, cursor) ← readDictionary payload 0
  let rest ← sliceFrom payload cursor
  let ids ← Varint.decodeU64 rest
  withCapacity sizeOfString ids.length
  total (Dictionary.lookupAll "dictionary id is too large" "dictionary id out of range" dictionary
    ids)

/-- Decode `u64` values with an implemented numeric codec. -/
def decodeU64 (config : EncodeConfig) (input : List UInt8) : Outcome (List UInt64) := do
  total config.validate
  match config.valueType, config.transform, config.codec with
  | .u64, .delta, .deltaVarintU64 => DeltaVarint.decodeU64 input
  | _, _, _ => .error (error (unsupported "u64 codec configuration"))

/-- `DecodedValues::decode`. -/
def decodeValues (column : ColumnSchema) (payload : List UInt8) : Outcome ColumnValues :=
  match column.valueType, column.codec with
  | .u64, .deltaVarintU64 => do
      let values ← decodeU64 column.encodeConfig payload
      return .u64 values
  | .string, .rle => do
      let values ← decodeStringValues payload
      return .string values
  | .string, .dictionary => do
      let values ← decodeDictionaryValues payload
      return .string values
  | _, _ => .error (error (unsupported "schema column codec"))

/-- `DecodedValues::value_at`. -/
def valueAt : ColumnValues → ℕ → Outcome Value
  | .u64 values, i => do
      let value ← index values i
      return .number (.posInt value)
  | .string values, i => do
      let value ← index values i
      return .string value

/-- One column up to its payload. -/
def readColumnHeader (expectedColumn : ColumnSchema) :
    CheckedReader (String × ℕ × List UInt8) := do
  let nameLen ← Checked.readUInt16 (readBytes "column name length is truncated")
  let nameBytes ← readBytes "column name is truncated" nameLen.toNat
  let name ← liftM (okOr (error (invalidInput "column name must be utf-8")) (fromUtf8 nameBytes))
  liftM (failIf (name ≠ expectedColumn.name)
    (error (invalidInput "column block name does not match schema")))
  let codecId ← Checked.readUInt8 (readBytes "column codec is truncated")
  let expectedId ← liftM (total (codecToId expectedColumn.codec))
  liftM (failIf (codecId ≠ expectedId)
    (error (invalidInput "column codec does not match schema")))
  let rowCount ← Checked.readUInt64 (readBytes "column row count is truncated")
  let rowCount ← liftM (total (tryUsize rowCount "column row count is too large"))
  let payloadLen ← Checked.readUInt64 (readBytes "column payload length is truncated")
  let payloadLen ← liftM (total (tryUsize payloadLen "column payload length is too large"))
  let payload ← readBytes "column payload is truncated" payloadLen
  return (name, rowCount, payload)

/-- One column, with the row count it declares. -/
def readColumnBlock (expectedColumn : ColumnSchema) (expectedRowCount : Option ℕ) :
    CheckedReader (DecodedColumn × ℕ) := do
  let (name, rowCount, payload) ← readColumnHeader expectedColumn
  let values ← liftM (decodeValues expectedColumn payload)
  liftM (failIf (values.len ≠ rowCount)
    (error (invalidInput "decoded column row count does not match metadata")))
  liftM (failIf (expectedRowCount.any (· != rowCount) = true)
    (error (invalidInput "decoded columns have different row counts")))
  return (⟨name, values⟩, rowCount)

/-- The columns, each with the row count of the one before it. -/
def readColumnBlocks : List ColumnSchema → Option ℕ → CheckedReader (List DecodedColumn)
  | [], _ => pure []
  | expectedColumn :: schemaColumns, expectedRowCount => do
      let (column, rowCount) ← readColumnBlock expectedColumn expectedRowCount
      let columns ← readColumnBlocks schemaColumns (some rowCount)
      return column :: columns

/-- The column block up to its first column. -/
def readBlockHeader (schemaColumns : List ColumnSchema) : CheckedReader Unit := do
  let magic ← readBytes "column block header is truncated" 4
  liftM (failIf (magic ≠ columnBlockMagic) (error (invalidInput "invalid column block magic")))
  let columnCount ← Checked.readUInt32 (readBytes "column block count is truncated")
  liftM (failIf (columnCount.toNat ≠ schemaColumns.length)
    (error (invalidInput "column block count does not match schema")))
  liftM (withCapacity sizeOfDecodedColumn columnCount.toNat : Outcome Unit)

def decodeColumnBlocks (data : List UInt8) (schemaColumns : List ColumnSchema) :
    Outcome (List DecodedColumn) := do
  let (_, cursor) ← readBlockHeader schemaColumns data 0
  let (decoded, cursor) ← readColumnBlocks schemaColumns none data cursor
  failIf (cursor ≠ data.length) (error (invalidInput "column block has trailing bytes"))
  return decoded

def renderJsonObject [SerdeJson] (columns : List DecodedColumn) (rowIndex : ℕ) :
    Outcome String := do
  let members ← columns.mapM fun column => do
    let value ← valueAt column.values rowIndex
    return (column.name, value)
  return renderObject members

/-- Decode a column-block JSONL frame back into compact one-object-per-line JSONL. -/
def decodeJsonl [Crc32Fast] [SerdeJson] (frame : List UInt8) (schema : Schema) :
    Outcome String := do
  let columns ← total schema.supportedColumns
  let outer ← Framing.decodeV1 frame
  failIf (outer.codec ≠ .columnBlock)
    (error (invalidInput "frame codec does not match jsonl schema"))
  let decodedColumns ← decodeColumnBlocks outer.payload columns
  let rowCount := (decodedColumns.head?.map fun column => column.values.len).getD 0
  (List.range rowCount).foldlM (fun out rowIndex => do
    let line ← renderJsonObject decodedColumns rowIndex
    return out ++ line ++ "\n") ""

end CompactCore.Checked.Io

/-! ### Where decoding stands when it allocates -/

namespace CompactCore.Io

open Wire CompactError

/-- What `readColumnBlock` reads of a column before it decodes the payload: the name, the number of
rows and the payload. -/
def readColumnHeader (expectedColumn : ColumnSchema) :
    Reader CompactError (String × ℕ × List UInt8) := do
  let nameLen ← readUInt16 (readBytes "column name length is truncated")
  let nameBytes ← readBytes "column name is truncated" nameLen.toNat
  let name ← okOr (invalidInput "column name must be utf-8") (fromUtf8 nameBytes)
  failIf (name ≠ expectedColumn.name) (invalidInput "column block name does not match schema")
  let codecId ← readUInt8 (readBytes "column codec is truncated")
  let expectedId ← codecToId expectedColumn.codec
  failIf (codecId ≠ expectedId) (invalidInput "column codec does not match schema")
  let rowCount ← readUInt64 (readBytes "column row count is truncated")
  let rowCount ← tryUsize rowCount "column row count is too large"
  let payloadLen ← readUInt64 (readBytes "column payload length is truncated")
  let payloadLen ← tryUsize payloadLen "column payload length is too large"
  let payload ← readBytes "column payload is truncated" payloadLen
  return (name, rowCount, payload)

/-- What `readColumnBlock` does behind the header. -/
def finishColumn (expectedColumn : ColumnSchema) (expectedRowCount : Option ℕ)
    (header : String × ℕ × List UInt8) : Reader CompactError (DecodedColumn × ℕ) := do
  let values ← ColumnValues.decode expectedColumn header.2.2
  failIf (values.len ≠ header.2.1)
    (invalidInput "decoded column row count does not match metadata")
  failIf (expectedRowCount.any (· != header.2.1) = true)
    (invalidInput "decoded columns have different row counts")
  return (⟨header.1, values⟩, header.2.1)

theorem readColumnBlock_eq (column : ColumnSchema) (expected : Option ℕ) :
    readColumnBlock column expected = readColumnHeader column >>= finishColumn column expected := by
  simp only [readColumnBlock, readColumnHeader, finishColumn, bind_assoc, pure_bind]

/-- What `readBlock` reads before the first column. -/
def readBlockHeader (schemaColumns : List ColumnSchema) : Reader CompactError Unit := do
  let magic ← readBytes "column block header is truncated" 4
  failIf (magic ≠ columnBlockMagic) (invalidInput "invalid column block magic")
  let columnCount ← readUInt32 (readBytes "column block count is truncated")
  failIf (columnCount.toNat ≠ schemaColumns.length)
    (invalidInput "column block count does not match schema")

theorem readBlock_eq (columns : List ColumnSchema) :
    readBlock columns = readBlockHeader columns >>= fun _ => readColumnBlocks columns none := by
  simp only [readBlock, readBlockHeader, bind_assoc]

/-- The columns that are read behind another column have as many rows. -/
theorem len_readColumnBlocks {columns : List ColumnSchema} {n c c' : ℕ} {data : List UInt8}
    {decoded : List DecodedColumn} (hfit : Fits data)
    (h : readColumnBlocks columns (some n) data c = .ok (decoded, c')) :
    ∀ column ∈ decoded, column.values.len = n := by
  induction columns generalizing n c decoded with
  | nil =>
      obtain ⟨rfl, -⟩ := Reader.pure_ok.1 h
      intro column hcolumn
      cases hcolumn
  | cons column columns ih =>
      simp only [readColumnBlocks, Reader.bind_ok, Reader.pure_ok] at h
      obtain ⟨⟨first, m⟩, _, hfirst, rest, _, hrest, rfl, rfl⟩ := h
      obtain ⟨-, hlen, hexpected, -⟩ := (readColumnBlock_ok hfit).1 hfirst
      obtain rfl := hexpected n rfl
      exact List.forall_mem_cons.2 ⟨hlen, ih hrest⟩

/-- All columns of a block have as many rows as the first one. -/
theorem len_decodeColumnBlocks {columns : List ColumnSchema} {data : List UInt8}
    {decoded : List DecodedColumn} (hfit : Fits data)
    (h : decodeColumnBlocks data columns = .ok decoded) :
    ∀ column ∈ decoded, column.values.len =
      (decoded.head?.map fun column => column.values.len).getD 0 := by
  simp only [decodeColumnBlocks, readBlock_eq, bind_ok, Prod.exists, Reader.bind_ok,
    Wire.pure_ok] at h
  obtain ⟨_, _, ⟨_, _, -, hcolumns⟩, _, -, rfl⟩ := h
  cases columns with
  | nil =>
      obtain ⟨rfl, -⟩ := Reader.pure_ok.1 hcolumns
      intro column hcolumn
      cases hcolumn
  | cons column columns =>
      simp only [readColumnBlocks, Reader.bind_ok, Reader.pure_ok] at hcolumns
      obtain ⟨⟨first, m⟩, _, hfirst, rest, _, hrest, rfl, rfl⟩ := hcolumns
      obtain ⟨-, rfl, -, -⟩ := (readColumnBlock_ok hfit).1 hfirst
      exact List.forall_mem_cons.2 ⟨rfl, len_readColumnBlocks hfit hrest⟩

end CompactCore.Io

/-! ### Where decoding panics -/

namespace CompactCore.Checked.Io

open Wire Fault CompactError
open CompactCore.Io (ColumnValues stringTexts dictionaryTexts DecodedColumn codecToId
  columnBlockMagic finishColumn)

theorem reads_readBytes (err : String) : Checked.Reads (readBytes err)
    (invalidInput "column block length overflow") (invalidInput err) := Checked.reads_readExact

theorem readStringValues_total {raw : List UInt8} (hfit : Fits raw) {rounds cursor : ℕ}
    (hpos : 0 < rounds) (hrounds : raw.length < cursor + rounds) :
    readStringValues raw rounds cursor = total (CompactCore.Io.readStringValues raw cursor) := by
  induction rounds generalizing cursor with
  | zero => omega
  | succ rounds ih =>
      rw [readStringValues, CompactCore.Io.readStringValues]
      split
      · have htotal : Strings.readOne (readBytes stringTexts.truncated) stringTexts raw cursor =
            _ :=
          Strings.readOne_total (reads_readBytes _) hfit cursor
        split
        · rename_i e hread
          rw [hread] at htotal
          rw [htotal]
          rfl
        · rename_i value cursor' hread
          rw [hread] at htotal
          rw [ok_bind_eq htotal]
          have hlt := CompactCore.Strings.readOne_cursor_lt hread
          have hle := ((CompactCore.Strings.readOne_ok hfit).1 hread).1.le
          have hnext := ((CompactCore.Strings.readOne_ok hfit).1 hread).2
          exact total_bind_of (ih (by omega) (by omega)) fun _ _ => rfl
      · rfl

theorem decodeStringValues_total (payload : List UInt8) :
    decodeStringValues payload = total (CompactCore.Io.decodeStringValues payload) := by
  rw [decodeStringValues, CompactCore.Io.decodeStringValues]
  refine total_bind_of (Rle.decodeRle_total payload) fun raw hraw => ?_
  have hle := CompactCore.Rle.decodeRleBounded_length_le hraw
  have hfit : Fits raw := lt_of_le_of_lt hle (by rw [maxDecodedBytes, wordSize]; omega)
  exact readStringValues_total hfit (Nat.succ_pos _) (by omega)

/-- A dictionary asks for a vector of as many strings as it declares. -/
def DeclaresRepresentable (payload : List UInt8) : Prop :=
  ∀ dictionaryLen c, CompactCore.Varint.readU64 payload 0 = .ok (dictionaryLen, c) →
    sizeOfString * dictionaryLen.toNat ≤ maxAllocation

/-- A dictionary column asks for a vector of as many strings as it has numbers. -/
def IdsRepresentable (payload : List UInt8) : Prop :=
  ∀ dictionary c ids, CompactCore.Io.readDictionary payload 0 = .ok (dictionary, c) →
    CompactCore.Varint.decodeU64 (payload.drop c) = .ok ids →
      sizeOfString * ids.length ≤ maxAllocation

theorem readDictionary_totalIff {payload : List UInt8} (hfit : Fits payload) :
    TotalIff (DeclaresRepresentable payload) (readDictionary payload 0)
      (CompactCore.Io.readDictionary payload 0) := by
  rw [readDictionary, CompactCore.Io.readDictionary]
  refine Reader.totalIff_bind_total (Varint.readU64_total hfit) fun dictionaryLen c _ => ?_
  rw [Reader.lift_of_ok (tryUsize_eq _ _),
    Reader.lift_bind_eq (total_eq_ok.2 (tryUsize_eq _ _))]
  refine Reader.totalIff_withCapacity ?_
  rw [Reader.bind_of_ok (Reader.input_ok.2 ⟨rfl, rfl⟩)]
  exact Strings.readCount_total (reads_readBytes _) hfit (Nat.succ_pos _) (by omega)

theorem cursor_le_of_readDictionary {payload : List UInt8} (hfit : Fits payload) {c : ℕ}
    {dictionary : List String}
    (h : CompactCore.Io.readDictionary payload 0 = .ok (dictionary, c)) : c ≤ payload.length := by
  simp only [CompactCore.Io.readDictionary, Reader.bind_ok, CompactCore.Varint.readU64_ok,
    Reader.lift_ok, tryUsize_eq] at h
  obtain ⟨_, _, ⟨hlen, rfl⟩, _, _, ⟨-, rfl⟩, hread⟩ := h
  obtain ⟨-, hat, rfl⟩ := (CompactCore.Strings.readCount_ok hfit hlen.le).1 hread
  exact hat.le

/-- **Where a dictionary column panics.** -/
theorem decodeDictionaryValues_totalIff {payload : List UInt8} (hfit : Fits payload) :
    TotalIff (DeclaresRepresentable payload ∧ IdsRepresentable payload)
      (decodeDictionaryValues payload) (CompactCore.Io.decodeDictionaryValues payload) := by
  rw [decodeDictionaryValues, CompactCore.Io.decodeDictionaryValues]
  refine ((readDictionary_totalIff hfit).bind
    (R := fun r => ∀ ids, CompactCore.Varint.decodeU64 (payload.drop r.2) = .ok ids →
      sizeOfString * ids.length ≤ maxAllocation) fun r hr => ?_).congr ?_
  · rcases r with ⟨dictionary, cursor⟩
    dsimp only
    rw [ok_bind_eq (sliceFrom_of (cursor_le_of_readDictionary hfit hr))]
    exact TotalIff.bind_total (Varint.decodeU64_total (hfit.drop _)) fun ids _ =>
      TotalIff.withCapacity rfl
  · refine and_congr_right fun _ =>
      ⟨fun h dictionary c ids hread => h ⟨dictionary, c⟩ hread ids, ?_⟩
    exact fun h r hread ids => h r.1 r.2 ids hread

/-- The vectors that the decoder asks for, on account of the payload of a column, can be
allocated. -/
def Representable (column : ColumnSchema) (payload : List UInt8) : Prop :=
  match column.valueType, column.codec with
  | .u64, .deltaVarintU64 => ∀ deltas, CompactCore.Varint.decodeU64 payload = .ok deltas →
      sizeOfU64 * deltas.length ≤ maxAllocation
  | .string, .dictionary => DeclaresRepresentable payload ∧ IdsRepresentable payload
  | _, _ => True

theorem decodeValues_totalIff {payload : List UInt8} (hfit : Fits payload)
    (column : ColumnSchema) : TotalIff (Representable column payload)
      (decodeValues column payload) (ColumnValues.decode column payload) := by
  obtain ⟨name, valueType, codec, nullable⟩ := column
  unfold decodeValues ColumnValues.decode Representable
  cases valueType with
  | u64 =>
      cases codec with
      | deltaVarintU64 =>
          -- the configuration of the column is the one that the codec implements
          exact (DeltaVarint.decodeU64_totalIff hfit).bind_of_total fun _ _ => rfl
      | _ => exact .of_total trivial rfl
  | string =>
      cases codec with
      | dictionary => exact (decodeDictionaryValues_totalIff hfit).bind_of_total fun _ _ => rfl
      | rle =>
          exact .of_total trivial (total_bind_of (decodeStringValues_total payload) fun _ _ => rfl)
      | _ => exact .of_total trivial rfl
  | bool => exact .of_total trivial rfl

theorem readColumnHeader_total (column : ColumnSchema) (data : List UInt8) (c : ℕ) :
    readColumnHeader column data c = total (CompactCore.Io.readColumnHeader column data c) := by
  rw [readColumnHeader, CompactCore.Io.readColumnHeader]
  refine Reader.total_bind_of (Checked.readUInt16_total (reads_readBytes _)) fun nameLen _ _ => ?_
  refine Reader.total_bind_of (Checked.readExact_total _) fun nameBytes _ _ => ?_
  refine Reader.total_bind_of (Reader.total_lift_of (total_okOr _ _).symm) fun name _ _ => ?_
  refine Reader.total_bind_of (Reader.total_lift_of (total_failIf _ _).symm) fun _ _ _ => ?_
  refine Reader.total_bind_of (Checked.readUInt8_total (reads_readBytes _)) fun codecId _ _ => ?_
  refine Reader.total_bind_of (Reader.total_lift_of rfl) fun expectedId _ _ => ?_
  refine Reader.total_bind_of (Reader.total_lift_of (total_failIf _ _).symm) fun _ _ _ => ?_
  refine Reader.total_bind_of (Checked.readUInt64_total (reads_readBytes _)) fun _ _ _ => ?_
  refine Reader.total_bind_of (Reader.total_lift_of rfl) fun rowCount _ _ => ?_
  refine Reader.total_bind_of (Checked.readUInt64_total (reads_readBytes _)) fun _ _ _ => ?_
  refine Reader.total_bind_of (Reader.total_lift_of rfl) fun payloadLen _ _ => ?_
  exact Reader.total_bind_of (Checked.readExact_total _) fun _ _ _ => rfl

/-- A payload that has been read can be addressed. -/
theorem fits_readColumnHeader {column : ColumnSchema} {data : List UInt8} {c c' : ℕ}
    {header : String × ℕ × List UInt8} (hfit : Fits data)
    (h : CompactCore.Io.readColumnHeader column data c = .ok (header, c')) : Fits header.2.2 := by
  simp only [CompactCore.Io.readColumnHeader, Reader.bind_ok, Reader.pure_ok,
    CompactCore.Io.readBytes, readExact_ok hfit] at h
  obtain ⟨_, _, -, _, _, -, _, _, -, _, _, -, _, _, -, _, _, -, _, _, -, _, _, -, _, _, -, _, _, -,
    _, _, -, _, _, ⟨hat, -⟩, rfl, -⟩ := h
  exact hfit.of_at hat

/-- **Where a column panics.** -/
theorem readColumnBlock_totalIff {column : ColumnSchema} {expected : Option ℕ} {data : List UInt8}
    {c : ℕ} (hfit : Fits data) :
    TotalIff (∀ header c', CompactCore.Io.readColumnHeader column data c = .ok (header, c') →
        Representable column header.2.2)
      (readColumnBlock column expected data c)
      (CompactCore.Io.readColumnBlock column expected data c) := by
  rw [CompactCore.Io.readColumnBlock_eq, readColumnBlock]
  refine Reader.totalIff_bind_total (readColumnHeader_total column data c)
    fun ⟨name, rowCount, payload⟩ c' hheader => ?_
  have hpayload : Fits payload := fits_readColumnHeader hfit hheader
  refine Reader.totalIff_bind_of_total
    (Reader.totalIff_lift (decodeValues_totalIff hpayload column)) fun values _ _ => ?_
  refine Reader.total_bind_of (Reader.total_lift_of (total_failIf _ _).symm) fun _ _ _ => ?_
  exact Reader.total_bind_of (Reader.total_lift_of (total_failIf _ _).symm) fun _ _ _ => rfl

/-- `ReachedFrom data columns expected c column payload`: reading columns from a cursor comes to a
column with this payload.  The columns before it are read, and its own header is what the schema
expects. -/
def ReachedFrom (data : List UInt8) (columns : List ColumnSchema) (expected : Option ℕ) (c : ℕ)
    (column : ColumnSchema) (payload : List UInt8) : Prop :=
  ∃ before after decoded c₁ name rowCount c₂, columns = before ++ column :: after ∧
    CompactCore.Io.readColumnBlocks before expected data c = .ok (decoded, c₁) ∧
    CompactCore.Io.readColumnHeader column data c₁ = .ok ((name, rowCount, payload), c₂)

theorem not_reachedFrom_nil {data : List UInt8} {expected : Option ℕ} {c : ℕ}
    {column : ColumnSchema} {payload : List UInt8} :
    ¬ReachedFrom data [] expected c column payload := by
  rintro ⟨before, after, _, _, _, _, _, hcolumns, -⟩
  have hlen := congrArg List.length hcolumns
  simp at hlen

/-- The column that is come to is the first one, or it is come to behind the first one. -/
theorem reachedFrom_cons {data : List UInt8} {first : ColumnSchema} {columns : List ColumnSchema}
    {expected : Option ℕ} {c : ℕ} {column : ColumnSchema} {payload : List UInt8} :
    ReachedFrom data (first :: columns) expected c column payload ↔
      column = first ∧ (∃ name rowCount c', CompactCore.Io.readColumnHeader first data c =
        .ok ((name, rowCount, payload), c')) ∨
      ∃ r c', CompactCore.Io.readColumnBlock first expected data c = .ok (r, c') ∧
        ReachedFrom data columns (some r.2) c' column payload := by
  constructor
  · rintro ⟨before, after, decoded, c₁, name, rowCount, c₂, hcolumns, hbefore, hheader⟩
    cases before with
    | nil =>
        obtain ⟨rfl, rfl⟩ := List.cons.inj hcolumns
        obtain ⟨-, rfl⟩ := Reader.pure_ok.1 hbefore
        exact .inl ⟨rfl, name, rowCount, c₂, hheader⟩
    | cons first' before =>
        obtain ⟨rfl, rfl⟩ := List.cons.inj hcolumns
        simp only [CompactCore.Io.readColumnBlocks, Reader.bind_ok, Reader.pure_ok] at hbefore
        obtain ⟨r, c', hr, rest, _, hrest, -, rfl⟩ := hbefore
        exact .inr ⟨r, c', hr, before, after, rest, _, name, rowCount, c₂, rfl, hrest, hheader⟩
  · rintro (⟨rfl, name, rowCount, c', hheader⟩ | ⟨r, c', hr, before, after, rest, c₁, name,
      rowCount, c₂, rfl, hrest, hheader⟩)
    · exact ⟨[], columns, [], c, name, rowCount, c', rfl, rfl, hheader⟩
    · refine ⟨first :: before, after, r.1 :: rest, c₁, name, rowCount, c₂, rfl, ?_, hheader⟩
      simp only [CompactCore.Io.readColumnBlocks, Reader.bind_ok, Reader.pure_ok]
      exact ⟨r, c', hr, rest, c₁, hrest, rfl, rfl⟩

/-- **Where the columns panic**: at a column that reading comes to. -/
theorem readColumnBlocks_totalIff {columns : List ColumnSchema} {expected : Option ℕ}
    {data : List UInt8} {c : ℕ} (hfit : Fits data) :
    TotalIff (∀ column payload, ReachedFrom data columns expected c column payload →
        Representable column payload)
      (readColumnBlocks columns expected data c)
      (CompactCore.Io.readColumnBlocks columns expected data c) := by
  induction columns generalizing expected c with
  | nil => exact .of_total (fun _ _ h => absurd h not_reachedFrom_nil) rfl
  | cons first columns ih =>
      rw [readColumnBlocks, CompactCore.Io.readColumnBlocks]
      have hrest : ∀ (r : DecodedColumn × ℕ) (c' : ℕ),
          TotalIff (∀ column payload, ReachedFrom data columns (some r.2) c' column payload →
              Representable column payload)
            ((readColumnBlocks columns (some r.2) >>= fun rest => pure (r.1 :: rest)) data c')
            ((CompactCore.Io.readColumnBlocks columns (some r.2) >>= fun rest =>
              pure (r.1 :: rest)) data c') :=
        fun r c' => Reader.totalIff_bind_of_total ih fun _ _ _ => rfl
      refine (Reader.totalIff_bind (readColumnBlock_totalIff hfit) fun r c' _ =>
        hrest r c').congr ⟨?_, ?_⟩
      · rintro ⟨hfirst, hrest⟩ column payload hreached
        rcases reachedFrom_cons.1 hreached with ⟨rfl, name, rowCount, c', hheader⟩ | ⟨r, c', hr, h⟩
        · exact hfirst _ _ hheader
        · exact hrest r c' hr column payload h
      · intro h
        exact ⟨fun header c' hheader => h _ _ (reachedFrom_cons.2 (.inl ⟨rfl, _, _, _, hheader⟩)),
          fun r c' hr column payload hreached =>
            h column payload (reachedFrom_cons.2 (.inr ⟨r, c', hr, hreached⟩))⟩

theorem readBlockHeader_total (columns : List ColumnSchema) (data : List UInt8) (c : ℕ) :
    readBlockHeader columns data c = total (CompactCore.Io.readBlockHeader columns data c) := by
  rw [readBlockHeader, CompactCore.Io.readBlockHeader]
  refine Reader.total_bind_of (Checked.readExact_total _) fun magic _ _ => ?_
  refine Reader.total_bind_of (Reader.total_lift_of (total_failIf _ _).symm) fun _ _ _ => ?_
  refine Reader.total_bind_of (Checked.readUInt32_total (reads_readBytes _)) fun count c' _ => ?_
  -- the number of columns is a 32-bit word
  have hcount := count.toNat_lt
  have hcap : sizeOfDecodedColumn * count.toNat ≤ maxAllocation := by
    rw [sizeOfDecodedColumn, sizeOfString, maxAllocation]
    omega
  rw [withCapacity_of hcap]
  unfold failIf
  split <;> rfl

/-- `Reached data columns column payload`: decoding a block comes to a column with this payload. -/
def Reached (data : List UInt8) (columns : List ColumnSchema) (column : ColumnSchema)
    (payload : List UInt8) : Prop :=
  ∃ c, CompactCore.Io.readBlockHeader columns data 0 = .ok ((), c) ∧
    ReachedFrom data columns none c column payload

theorem decodeColumnBlocks_totalIff {columns : List ColumnSchema} {data : List UInt8}
    (hfit : Fits data) :
    TotalIff (∀ column payload, Reached data columns column payload →
        Representable column payload)
      (decodeColumnBlocks data columns) (CompactCore.Io.decodeColumnBlocks data columns) := by
  rw [decodeColumnBlocks, CompactCore.Io.decodeColumnBlocks, CompactCore.Io.readBlock_eq]
  have hheader := readBlockHeader_total columns data 0
  cases h : CompactCore.Io.readBlockHeader columns data 0 with
  | error e =>
      rw [h] at hheader
      rw [hheader, Reader.bind_of_error h]
      refine .of_total ?_ rfl
      rintro column payload ⟨c, hc, -⟩
      rw [h] at hc
      cases hc
  | ok r =>
      obtain ⟨_, c⟩ := r
      rw [h] at hheader
      rw [ok_bind_eq hheader, Reader.bind_of_ok h]
      refine ((readColumnBlocks_totalIff hfit).bind_of_total fun r _ => ?_).congr ⟨?_, ?_⟩
      · rcases r with ⟨decoded, cursor⟩
        exact total_bind_of (total_failIf _ _).symm fun _ _ => rfl
      · rintro hall column payload ⟨c', hc', hreached⟩
        rw [h] at hc'
        cases hc'
        exact hall column payload hreached
      · exact fun hall column payload hreached => hall column payload ⟨c, h, hreached⟩

/-! ### Rendering -/

theorem valueAt_total {values : ColumnValues} {i : ℕ} (h : i < values.len) :
    valueAt values i = .ok (values.valueAt i) := by
  cases values with
  | u64 values => rw [valueAt, ok_bind_eq (index_getD 0 h)]; rfl
  | string values => rw [valueAt, ok_bind_eq (index_getD "" h)]; rfl

theorem renderJsonObject_total [SerdeJson] {columns : List DecodedColumn} {i : ℕ}
    (h : ∀ column ∈ columns, i < column.values.len) :
    renderJsonObject columns i = .ok (CompactCore.Io.renderJsonObject columns i) := by
  have hmembers : columns.mapM (fun column => do
      let value ← valueAt column.values i
      return (column.name, value) : DecodedColumn → Outcome (String × Value)) =
      .ok (columns.map fun column => (column.name, column.values.valueAt i)) :=
    mapM_of_ok fun column hcolumn => ok_bind_eq (valueAt_total (h column hcolumn)) _
  rw [renderJsonObject, ok_bind_eq hmembers]
  rfl

/-! ### Frames -/

/-- Every column of a block that decoding comes to has vectors that can be allocated. -/
def BlockRepresentable (schema : Schema) (data : List UInt8) : Prop :=
  ∀ columns column payload, schema.supportedColumns = .ok columns →
    Reached data columns column payload → Representable column payload

/-- **Where decoding a frame panics**: at a column that it comes to, whose vectors cannot be
allocated. -/
theorem decodeJsonl_totalIff [Crc32Fast] [SerdeJson] {frame : List UInt8} (hfit : Fits frame)
    (schema : Schema) :
    TotalIff (∀ data, CompactCore.Framing.decodeV1 frame = .ok ⟨.columnBlock, data⟩ →
        BlockRepresentable schema data)
      (decodeJsonl frame schema) (CompactCore.Io.decodeJsonl frame schema) := by
  rw [decodeJsonl, CompactCore.Io.decodeJsonl]
  have hinner : ∀ columns outer, CompactCore.Framing.decodeV1 frame = .ok outer →
      TotalIff (outer.codec = .columnBlock → ∀ column payload,
          Reached outer.payload columns column payload → Representable column payload)
        (do
          failIf (outer.codec ≠ .columnBlock)
            (error (invalidInput "frame codec does not match jsonl schema"))
          let decodedColumns ← decodeColumnBlocks outer.payload columns
          let rowCount := (decodedColumns.head?.map fun column => column.values.len).getD 0
          (List.range rowCount).foldlM (fun out rowIndex => do
            let line ← renderJsonObject decodedColumns rowIndex
            return out ++ line ++ "\n") "")
        (do
          failIf (outer.codec ≠ .columnBlock)
            (invalidInput "frame codec does not match jsonl schema")
          let decodedColumns ← CompactCore.Io.decodeColumnBlocks outer.payload columns
          let rowCount := (decodedColumns.head?.map fun column => column.values.len).getD 0
          return (List.range rowCount).foldl (fun out rowIndex =>
            out ++ CompactCore.Io.renderJsonObject decodedColumns rowIndex ++ "\n") "") := by
    intro columns outer hframe
    have hpayload : Fits outer.payload := by
      rw [(CompactCore.Framing.decodeV1_ok hfit).1 hframe, Fits,
        CompactCore.Framing.length_encodeV1] at hfit
      exact lt_of_le_of_lt (Nat.le_add_left ..) hfit
    refine (TotalIff.bind_total (total_failIf _ _).symm fun _ _ =>
      (decodeColumnBlocks_totalIff hpayload).bind_of_total fun decoded hdecoded => ?_).congr ?_
    · have hlen := CompactCore.Io.len_decodeColumnBlocks hpayload hdecoded
      refine foldlM_of_ok (fun out i hi => ?_) ""
      have hi := List.mem_range.1 hi
      exact ok_bind_eq (renderJsonObject_total fun column hcolumn => by
        rw [hlen column hcolumn]; exact hi) _
    · simp only [failIf_ok, not_not, forall_const]
  refine (TotalIff.bind_total rfl fun columns _ =>
    TotalIff.bind_total (Framing.decodeV1_total frame) fun outer h => hinner columns outer h).congr
    ⟨?_, ?_⟩
  · intro hall data hframe columns column payload hcolumns hreached
    exact hall columns hcolumns _ hframe rfl column payload hreached
  · rintro hall columns hcolumns ⟨codec, data⟩ hframe rfl column payload hreached
    exact hall data hframe columns column payload hcolumns hreached

/-! ### Payloads of an ordinary size -/

theorem length_le_of_decodeU64 {data : List UInt8} {values : List UInt64}
    (h : CompactCore.Varint.decodeU64 data = .ok values) : values.length ≤ data.length := by
  rw [CompactCore.Varint.decodeU64_ok.1 h]
  exact CompactCore.Varint.length_encodeU64_ge values

/-- **In a payload that is not huge, only the declared length of a dictionary matters**: the numbers
of a column stand in the payload, and are not more than its bytes. -/
theorem representable_iff {column : ColumnSchema} {payload : List UInt8}
    (hsize : sizeOfString * payload.length ≤ maxAllocation) :
    Representable column payload ↔ (column.valueType = .string → column.codec = .dictionary →
      DeclaresRepresentable payload) := by
  rw [sizeOfString, maxAllocation] at hsize
  obtain ⟨name, valueType, codec, nullable⟩ := column
  unfold Representable
  cases valueType with
  | u64 =>
      cases codec with
      | deltaVarintU64 =>
          refine iff_of_true (fun deltas hdeltas => ?_) (fun h => by cases h)
          have hlen := length_le_of_decodeU64 hdeltas
          rw [sizeOfU64, maxAllocation]
          omega
      | _ => simp
  | string =>
      cases codec with
      | dictionary =>
          refine ⟨fun h _ _ => h.1, fun h => ⟨h rfl rfl, fun dictionary c ids _ hids => ?_⟩⟩
          have hlen := length_le_of_decodeU64 hids
          have hdrop : (payload.drop c).length ≤ payload.length := by simp
          rw [sizeOfString, maxAllocation]
          omega
      | _ => simp
  | bool => simp

end CompactCore.Checked.Io
