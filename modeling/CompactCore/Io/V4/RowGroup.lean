/-
**`CMP4` row groups.**

A row group is a header with sequence numbers, one chunk for every column, and a checksum.  The
writer computes the footer entry of a row group while it writes it; the recovery scanner computes it
again from the bytes; the reader compares the two.  This module says once what a row group is, and
what its entry is, and shows that the writer writes exactly that, that the scanner accepts exactly
that, and that the reader's check passes on it.

Main definitions:

* `CompactCore.Io.V4.encodeRowGroup`, `CompactCore.Io.V4.recoverRowGroup`,
  `CompactCore.Io.V4.verifyRowGroup` — the writer, the scanner and the check;
* `CompactCore.Io.V4.RowGroup` — a row group, with its bytes and its entry;
* `CompactCore.Io.V4.RowGroup.WellFormed` — what the scanner accepts.

Main results:

* `CompactCore.Io.V4.recoverRowGroup_ok` — **scanning is exact**: a row group is recovered from the
  bytes of a well-formed row group, and from no others;
* `CompactCore.Io.V4.encodeRowGroup_ok` — the writer writes a well-formed row group;
* `CompactCore.Io.V4.verifyRowGroup_entry` — the check passes on well-formed row groups;
* `CompactCore.Io.V4.RowGroup.WellFormed.unique` — row groups are self-delimiting.
-/

import CompactCore.Format.V4
import CompactCore.Io.V3

set_option relaxedAutoImplicit false
set_option autoImplicit false

namespace CompactCore.Io.V4

open Wire CompactError Format.V3 Format.V4 Codecs.V3 Io.V3

/-- `b"RGB4"`. -/
def rowGroupMagic : List UInt8 := [0x52, 0x47, 0x42, 0x34]

def checksumLen : ℕ := 4

def rowGroupHeaderLen : ℕ := 40

/-! ### Writing -/

def absoluteOffset (base : UInt64) (relative : ℕ) : Result UInt64 := do
  let relative ← tryU64 relative "cmp4 relative offset is too large"
  okOr (invalidInput "cmp4 offset overflow") (checkedAdd base relative)

/-- The bytes written so far, and the entries of the columns they hold. -/
structure RowGroupWriter where
  rowGroup : List UInt8
  columnEntries : List ColumnIndexEntry

/-- Write the chunk of one column. -/
def encodeRowGroupColumn (rows : List Map) (rowGroupOffset : UInt64) (s : RowGroupWriter)
    (column : ColumnSchema) : Result RowGroupWriter := do
  let chunk ← encodeColumn column rows
  let metadata ← encodeColumnMetadata chunk.metadata
  let metadataLen ← tryU32 metadata.length "cmp4 column metadata is too large"
  let metadataOffset ← absoluteOffset rowGroupOffset (s.rowGroup ++ le32 metadataLen).length
  let payloadOffset ←
    absoluteOffset rowGroupOffset (s.rowGroup ++ le32 metadataLen ++ metadata).length
  let payloadLen ← tryU64 chunk.payload.length "cmp4 column payload is too large"
  return {
    rowGroup := s.rowGroup ++ le32 metadataLen ++ metadata ++ chunk.payload
    columnEntries := s.columnEntries ++ [{
      name := column.name
      metadataOffset := metadataOffset
      metadataLen := metadataLen.toUInt64
      payloadOffset := payloadOffset
      payloadLen := payloadLen
      valueCount := chunk.metadata.valueCount
      nullCount := chunk.metadata.nullCount
      statisticsMetadata := chunk.metadata.statisticsMetadata }] }

/-- The header of a row group. -/
def rowGroupHeader (rowGroupIndex firstRowIndex rowCount rawSize : UInt64) (columnCount : UInt32) :
    List UInt8 :=
  rowGroupMagic ++ (le64 rowGroupIndex ++ (le64 firstRowIndex ++ (le64 rowCount ++
    (le64 rawSize ++ le32 columnCount))))

def encodeRowGroup [Crc32Fast] (rowGroupIndex firstRowIndex : ℕ) (rows : List Map)
    (columns : List ColumnSchema) (rowGroupOffset : UInt64) :
    Result (List UInt8 × RowGroupIndexEntry) := do
  let rowCount ← tryU64 rows.length "cmp4 row count is too large"
  let columnCount ← tryU32 columns.length "cmp4 schema has too many columns"
  let index ← tryU64 rowGroupIndex "cmp4 row group index is too large"
  let firstRow ← tryU64 firstRowIndex "cmp4 first row index is too large"
  let s ← columns.foldlM (encodeRowGroupColumn rows rowGroupOffset)
    ⟨rowGroupHeader index firstRow rowCount 0 columnCount, []⟩
  let rowGroup := s.rowGroup ++ le32 (checksum s.rowGroup)
  let rowGroupLen ← tryU64 rowGroup.length "cmp4 row group length is too large"
  return (rowGroup, {
    rowGroupIndex := index
    firstRowIndex := firstRow
    rowCount := rowCount
    rowGroupOffset := rowGroupOffset
    rowGroupLen := rowGroupLen
    columns := s.columnEntries })

/-! ### Scanning -/

def readBytes (err : String) : ℕ → Reader CompactError (List UInt8) :=
  readExact (invalidInput "cmp4 row group length overflow") (invalidInput err)

/-- Recover the entry of one column, given the names before it. -/
def recoverColumn (rowCount : UInt64) (names : List String) :
    Reader CompactError ColumnIndexEntry := do
  let metadataLen ← readUInt32 (readBytes "cmp4 column metadata length is truncated")
  let metadataLen := metadataLen.toNat
  let cursor ← Reader.cursor
  let metadataOffset ← tryU64 cursor "cmp4 metadata offset is too large"
  let metadataBytes ← readBytes "cmp4 column metadata is truncated" metadataLen
  let (metadata, consumed) ← decodeColumnMetadata metadataBytes
  failIf (consumed ≠ metadataBytes.length)
    (invalidInput "cmp4 column metadata has trailing bytes")
  failIf (metadata.valueCount ≠ rowCount)
    (invalidInput "cmp4 column value count does not match row group")
  failIf (metadata.name ∈ names) (invalidInput "cmp4 duplicate column in row group")
  let _ ← Statistics.decode metadata.statisticsMetadata
  let cursor ← Reader.cursor
  let payloadOffset ← tryU64 cursor "cmp4 payload offset is too large"
  let payloadLen ← tryUsize metadata.compressedSize "cmp4 column payload is too large"
  let _ ← readBytes "cmp4 column payload is truncated" payloadLen
  let metadataLen ← tryU64 metadataLen "cmp4 metadata length is too large"
  return {
    name := metadata.name
    metadataOffset := metadataOffset
    metadataLen := metadataLen
    payloadOffset := payloadOffset
    payloadLen := metadata.compressedSize
    valueCount := metadata.valueCount
    nullCount := metadata.nullCount
    statisticsMetadata := metadata.statisticsMetadata }

def recoverColumns (rowCount : UInt64) : ℕ → List String →
    Reader CompactError (List ColumnIndexEntry)
  | 0, _ => pure []
  | count + 1, names => do
      let column ← recoverColumn rowCount names
      let columns ← recoverColumns rowCount count (column.name :: names)
      return column :: columns

/-- The row group at the cursor, which started at `start`. -/
def readRowGroup [Crc32Fast] (start : ℕ) (expectedIndex expectedFirstRow : UInt64) :
    Reader CompactError RowGroupIndexEntry := do
  let magic ← readBytes "cmp4 row group magic is truncated" rowGroupMagic.length
  failIf (magic ≠ rowGroupMagic) (invalidInput "invalid cmp4 row group magic")
  let rowGroupIndex ← readUInt64 (readBytes "cmp4 row group index is truncated")
  failIf (rowGroupIndex ≠ expectedIndex) (invalidInput "cmp4 row group index is not sequential")
  let firstRowIndex ← readUInt64 (readBytes "cmp4 first row index is truncated")
  failIf (firstRowIndex ≠ expectedFirstRow)
    (invalidInput "cmp4 first row index is not sequential")
  let rowCount ← readUInt64 (readBytes "cmp4 row count is truncated")
  failIf (rowCount = 0) (invalidInput "cmp4 row group must contain rows")
  let _ ← readUInt64 (readBytes "cmp4 raw jsonl size is truncated")
  let columnCount ← readUInt32 (readBytes "cmp4 column count is truncated")
  let columnCount := columnCount.toNat
  let remaining ← Reader.remaining
  failIf (maxCollectionEntries < columnCount ∨ remaining / 4 < columnCount)
    (invalidInput "cmp4 column count exceeds row group bounds")
  let columns ← recoverColumns rowCount columnCount []
  let checksumOffset ← Reader.cursor
  let storedChecksum ← readUInt32 (readBytes "cmp4 row group checksum is truncated")
  let data ← Reader.input
  failIf (verify ((data.drop start).take (checksumOffset - start)) storedChecksum = false)
    (invalidInput "cmp4 row group checksum mismatch")
  let rowGroupOffset ← tryU64 start "cmp4 row group offset is too large"
  let cursor ← Reader.cursor
  let rowGroupLen ← tryU64 (cursor - start) "cmp4 row group length is too large"
  return {
    rowGroupIndex := expectedIndex
    firstRowIndex := expectedFirstRow
    rowCount := rowCount
    rowGroupOffset := rowGroupOffset
    rowGroupLen := rowGroupLen
    columns := columns }

def recoverRowGroup [Crc32Fast] (data : List UInt8) (start : ℕ)
    (expectedIndex expectedFirstRow : UInt64) : Result (RowGroupIndexEntry × ℕ) :=
  readRowGroup start expectedIndex expectedFirstRow data start

theorem readBytes_forward (err : String) (len : ℕ) : (readBytes err len).Forward :=
  Reader.Forward.readExact _ _ len

theorem recoverColumn_forward (rowCount : UInt64) (names : List String) :
    (recoverColumn rowCount names).Forward :=
  (Reader.Forward.readUInt32 (readBytes_forward _)).bind fun _ => .bind .cursor fun _ =>
    .bind (.lift _) fun _ => .bind (readBytes_forward _ _) fun _ => .bind (.lift _) fun _ =>
    .bind (.lift _) fun _ => .bind (.lift _) fun _ => .bind (.lift _) fun _ =>
    .bind (.lift _) fun _ => .bind .cursor fun _ => .bind (.lift _) fun _ =>
    .bind (.lift _) fun _ => .bind (readBytes_forward _ _) fun _ => .bind (.lift _) fun _ => .pure _

theorem recoverColumns_forward (rowCount : UInt64) (count : ℕ) (names : List String) :
    (recoverColumns rowCount count names).Forward := by
  induction count generalizing names with
  | zero => exact .pure _
  | succ count ih =>
      exact (recoverColumn_forward rowCount names).bind fun _ => (ih _).bind fun _ => .pure _

/-- A recovered row group takes at least a byte. -/
theorem recoverRowGroup_lt [Crc32Fast] {data : List UInt8} {start next : ℕ}
    {expectedIndex expectedFirstRow : UInt64} {entry : RowGroupIndexEntry}
    (h : recoverRowGroup data start expectedIndex expectedFirstRow = .ok (entry, next)) :
    start < next := by
  obtain ⟨magic, c, hmagic, hrest⟩ := Reader.bind_ok.1 h
  have hc := (readExact_at hmagic).2.2
  have hle : c ≤ next := by
    refine Reader.Forward.bind (.lift _) (fun _ => ?_) _ _ _ _ hrest
    exact .bind (.readUInt64 (readBytes_forward _)) fun _ => .bind (.lift _) fun _ =>
      .bind (.readUInt64 (readBytes_forward _)) fun _ => .bind (.lift _) fun _ =>
      .bind (.readUInt64 (readBytes_forward _)) fun _ => .bind (.lift _) fun _ =>
      .bind (.readUInt64 (readBytes_forward _)) fun _ =>
      .bind (.readUInt32 (readBytes_forward _)) fun _ => .bind .remaining fun _ =>
      .bind (.lift _) fun _ => .bind (recoverColumns_forward _ _ _) fun _ => .bind .cursor fun _ =>
      .bind (.readUInt32 (readBytes_forward _)) fun _ => .bind .input fun _ =>
      .bind (.lift _) fun _ => .bind (.lift _) fun _ => .bind .cursor fun _ =>
      .bind (.lift _) fun _ => .pure _
  have hlen : rowGroupMagic.length = 4 := rfl
  omega

/-! ### Checking -/

def checkedSlice (data : List UInt8) (offset len : UInt64) (err : String) :
    Result (List UInt8) := do
  let start ← tryUsize offset "cmp4 offset is too large"
  let len ← tryUsize len "cmp4 length is too large"
  let sliceEnd ← okOr (invalidInput "cmp4 range overflow") (usizeAdd start len)
  failIf (data.length < sliceEnd) (invalidInput err)
  return (data.drop start).take len

/-- The header of a row group agrees with its footer entry. -/
def checkRowGroupHeader (rowGroup : RowGroupIndexEntry) : Reader CompactError Unit := do
  let magic ← readBytes "cmp4 row group magic is truncated" rowGroupMagic.length
  failIf (magic ≠ rowGroupMagic) (invalidInput "invalid cmp4 row group magic")
  let rowGroupIndex ← readUInt64 (readBytes "cmp4 row group index is truncated")
  failIf (rowGroupIndex ≠ rowGroup.rowGroupIndex)
    (invalidInput "cmp4 row group index does not match footer")
  let firstRowIndex ← readUInt64 (readBytes "cmp4 first row index is truncated")
  failIf (firstRowIndex ≠ rowGroup.firstRowIndex)
    (invalidInput "cmp4 first row index does not match footer")
  let rowCount ← readUInt64 (readBytes "cmp4 row count is truncated")
  failIf (rowCount ≠ rowGroup.rowCount) (invalidInput "cmp4 row count does not match footer")
  let _ ← readUInt64 (readBytes "cmp4 raw jsonl size is truncated")
  let columnCount ← readUInt32 (readBytes "cmp4 column count is truncated")
  failIf (columnCount.toNat ≠ rowGroup.columns.length)
    (invalidInput "cmp4 column count does not match footer")

/-- The checksum of a row group is right, if it is asked for. -/
def verifyChecksum [Crc32Fast] (data : List UInt8) (rowGroup : RowGroupIndexEntry)
    (verifyFullChecksum : Bool) : Result Unit :=
  if verifyFullChecksum then do
    let bytes ← checkedSlice data rowGroup.rowGroupOffset rowGroup.rowGroupLen
      "cmp4 row group is truncated"
    let checksumOffset := bytes.length - checksumLen
    failIf (verify (bytes.take checksumOffset) (u32OfLe (bytes.drop checksumOffset)) = false)
      (invalidInput "cmp4 row group checksum mismatch")
  else .ok ()

def verifyRowGroup [Crc32Fast] (data : List UInt8) (rowGroup : RowGroupIndexEntry)
    (verifyFullChecksum : Bool) : Result Unit := do
  failIf (rowGroup.rowGroupLen.toNat < rowGroupHeaderLen + checksumLen)
    (invalidInput "cmp4 row group is truncated")
  let header ← checkedSlice data rowGroup.rowGroupOffset (UInt64.ofNat rowGroupHeaderLen)
    "cmp4 row group header is truncated"
  verifyChecksum data rowGroup verifyFullChecksum
  let _ ← checkRowGroupHeader rowGroup header 0

/-! ### What a row group is -/

/-- The encoding of a metadata record. -/
def metadataBytes (metadata : ColumnChunkMetadata) : List UInt8 :=
  (encodeColumnMetadata metadata).toOption.getD []

theorem metadataBytes_eq {metadata : ColumnChunkMetadata} {bytes : List UInt8}
    (h : encodeColumnMetadata metadata = .ok bytes) : metadataBytes metadata = bytes := by
  rw [metadataBytes, h]
  rfl

/-- The bytes of a chunk in a row group. -/
def chunkBytes (chunk : EncodedColumnChunk) : List UInt8 :=
  le32 (UInt32.ofNat (metadataBytes chunk.metadata).length) ++
    (metadataBytes chunk.metadata ++ chunk.payload)

/-- The footer entry of a chunk at an offset of the file. -/
def chunkEntry (offset : ℕ) (chunk : EncodedColumnChunk) : ColumnIndexEntry where
  name := chunk.metadata.name
  metadataOffset := UInt64.ofNat (offset + 4)
  metadataLen := UInt64.ofNat (metadataBytes chunk.metadata).length
  payloadOffset := UInt64.ofNat (offset + 4 + (metadataBytes chunk.metadata).length)
  payloadLen := chunk.metadata.compressedSize
  valueCount := chunk.metadata.valueCount
  nullCount := chunk.metadata.nullCount
  statisticsMetadata := chunk.metadata.statisticsMetadata

/-- The footer entries of chunks that follow each other. -/
def chunkEntries (offset : ℕ) : List EncodedColumnChunk → List ColumnIndexEntry
  | [] => []
  | chunk :: chunks =>
      chunkEntry offset chunk :: chunkEntries (offset + (chunkBytes chunk).length) chunks

/-- A chunk that the scanner accepts in a row group of `rowCount` rows. -/
structure ChunkValid (rowCount : UInt64) (chunk : EncodedColumnChunk) : Prop where
  encodes : encodeColumnMetadata chunk.metadata = .ok (metadataBytes chunk.metadata)
  length_lt : (metadataBytes chunk.metadata).length < 2 ^ 32
  valueCount_eq : chunk.metadata.valueCount = rowCount
  statistics : ∃ statistics, Statistics.decode chunk.metadata.statisticsMetadata = .ok statistics
  payload : chunk.metadata.compressedSize.toNat = chunk.payload.length

/-- A row group. -/
structure RowGroup where
  index : UInt64
  firstRowIndex : UInt64
  rowCount : UInt64
  rawSize : UInt64
  chunks : List EncodedColumnChunk

namespace RowGroup

/-- What the checksum covers. -/
def body (group : RowGroup) : List UInt8 :=
  rowGroupHeader group.index group.firstRowIndex group.rowCount group.rawSize
    (UInt32.ofNat group.chunks.length) ++ group.chunks.flatMap chunkBytes

def bytes [Crc32Fast] (group : RowGroup) : List UInt8 :=
  group.body ++ le32 (checksum group.body)

/-- The footer entry of a row group at an offset of the file. -/
def entry (offset : ℕ) (group : RowGroup) : RowGroupIndexEntry where
  rowGroupIndex := group.index
  firstRowIndex := group.firstRowIndex
  rowCount := group.rowCount
  rowGroupOffset := UInt64.ofNat offset
  rowGroupLen := UInt64.ofNat (group.body.length + checksumLen)
  columns := chunkEntries (offset + rowGroupHeaderLen) group.chunks

/-- A row group that the scanner accepts, where its numbers are expected. -/
structure WellFormed (group : RowGroup) : Prop where
  rowCount_ne : group.rowCount ≠ 0
  chunks : ∀ chunk ∈ group.chunks, ChunkValid group.rowCount chunk
  nodup : (group.chunks.map (·.metadata.name)).Nodup
  length_le : group.chunks.length ≤ maxCollectionEntries

end RowGroup

@[simp] theorem length_rowGroupHeader (index firstRow rowCount rawSize : UInt64)
    (columnCount : UInt32) :
    (rowGroupHeader index firstRow rowCount rawSize columnCount).length = rowGroupHeaderLen := by
  simp [rowGroupHeader, rowGroupMagic, rowGroupHeaderLen]

theorem length_chunkBytes (chunk : EncodedColumnChunk) : (chunkBytes chunk).length =
    4 + (metadataBytes chunk.metadata).length + chunk.payload.length := by
  rw [chunkBytes, List.length_append, List.length_append, length_le32]
  omega

theorem RowGroup.length_bytes [Crc32Fast] (group : RowGroup) :
    group.bytes.length = group.body.length + checksumLen := by
  rw [RowGroup.bytes, List.length_append, length_le32]
  rfl

theorem RowGroup.bytes_ne [Crc32Fast] (group : RowGroup) : group.bytes ≠ [] := by
  intro hnil
  have hlen := group.length_bytes
  rw [hnil, checksumLen, List.length_nil] at hlen
  omega

/-! ### Scanning is exact -/

/-- Scanning a column is exact. -/
theorem recoverColumn_ok {rowCount : UInt64} {names : List String} {data : List UInt8} {c c' : ℕ}
    {entry : ColumnIndexEntry} (hfit : Fits data) :
    recoverColumn rowCount names data c = .ok (entry, c') ↔
      ∃ chunk, ChunkValid rowCount chunk ∧ chunk.metadata.name ∉ names ∧
        At data c (chunkBytes chunk) ∧ entry = chunkEntry c chunk ∧
        c' = c + (chunkBytes chunk).length := by
  simp only [recoverColumn, readBytes, Reader.bind_ok, readUInt32_ok hfit, readExact_ok hfit,
    Reader.cursor_ok, Reader.lift_ok, tryU64_ok, tryUsize_eq, Except.ok.injEq, failIf_ok, not_not,
    Reader.pure_ok, Prod.exists, and_assoc, exists_and_left, exists_eq_left, exists_eq_left',
    exists_const]
  constructor
  · intro h
    obtain ⟨metadataLen, h₁, metadataOffset, hoff, bytes, h₂, hlen₂, metadata, n, hdec, hcons,
      hvalue, hname, stats, hstats, payloadOffset, hpoff, payload, h₃, hlen₃, metadataLen', hmlen,
      rfl, rfl⟩ := h
    have hfit' : Fits bytes := by
      have hle := h₂.le
      rw [Fits] at hfit ⊢
      omega
    obtain ⟨_, henc, hpre, rfl⟩ := (decodeColumnMetadata_ok hfit').1 hdec
    obtain rfl := hpre.eq_of_length hcons
    have hmeta := metadataBytes_eq henc
    rw [← hmeta] at henc hlen₂ h₂ hcons
    have hword := metadataLen.toNat_lt
    have hlen : UInt32.ofNat (metadataBytes metadata).length = metadataLen := by
      rw [hlen₂, UInt32.ofNat_toNat]
    have hlt : (metadataBytes metadata).length < 2 ^ 32 := by omega
    refine ⟨⟨metadata, payload⟩, ⟨henc, hlt, hvalue, ⟨stats, hstats⟩, hlen₃.symm⟩, hname, ?_,
      ?_, ?_⟩
    · rw [chunkBytes, at_append, at_append, length_le32, hlen, hlen₂]
      exact ⟨h₁, h₂, h₃⟩
    · rw [chunkEntry, eq_ofNat hoff, eq_ofNat hpoff, eq_ofNat hmlen, ← hlen₂]
    · rw [length_chunkBytes]
      show c + 4 + metadataLen.toNat + _ =
        c + (4 + (metadataBytes metadata).length + payload.length)
      omega
  · intro h
    obtain ⟨chunk, hvalid, hname, hat, rfl, rfl⟩ := h
    have hlt := hvalid.length_lt
    have hpayload := hvalid.payload
    have hlen : (UInt32.ofNat (metadataBytes chunk.metadata).length).toNat =
        (metadataBytes chunk.metadata).length := by
      rw [UInt32.toNat_ofNat', Nat.mod_eq_of_lt hlt]
    rw [chunkBytes, at_append, at_append, length_le32] at hat
    obtain ⟨h₁, h₂, h₃⟩ := hat
    have hle := h₃.le
    have hend : c + 4 + (metadataBytes chunk.metadata).length < 2 ^ 64 := by
      rw [Fits, wordSize] at hfit
      omega
    have hfit' : Fits (metadataBytes chunk.metadata) := by
      rw [Fits, wordSize]
      omega
    obtain ⟨stats, hstats⟩ := hvalid.statistics
    refine ⟨_, h₁, UInt64.ofNat (c + 4), ?_, metadataBytes chunk.metadata, h₂, hlen.symm,
      chunk.metadata, _,
      (decodeColumnMetadata_ok hfit').2 ⟨_, hvalid.encodes, List.prefix_rfl, rfl⟩, rfl,
      hvalid.valueCount_eq, hname, stats, hstats,
      UInt64.ofNat (c + 4 + (metadataBytes chunk.metadata).length), ?_, chunk.payload, ?_,
      hpayload.symm, UInt64.ofNat (metadataBytes chunk.metadata).length, ?_, rfl, ?_⟩
    · exact toNat_ofNat (by omega)
    · rw [toNat_ofNat hend, hlen]
    · rw [hlen]
      exact h₃
    · rw [toNat_ofNat (by omega), hlen]
    · rw [length_chunkBytes, hlen, hpayload]
      omega

/-- Scanning columns is exact. -/
theorem recoverColumns_ok {rowCount : UInt64} {names : List String} {data : List UInt8} {n c c' : ℕ}
    {entries : List ColumnIndexEntry} (hfit : Fits data) (hc : c ≤ data.length) :
    recoverColumns rowCount n names data c = .ok (entries, c') ↔
      ∃ chunks : List EncodedColumnChunk, chunks.length = n ∧
        (∀ chunk ∈ chunks, ChunkValid rowCount chunk) ∧
        (chunks.map (·.metadata.name)).Nodup ∧ (∀ chunk ∈ chunks, chunk.metadata.name ∉ names) ∧
        At data c (chunks.flatMap chunkBytes) ∧ entries = chunkEntries c chunks ∧
        c' = c + (chunks.flatMap chunkBytes).length := by
  induction n generalizing names c entries with
  | zero =>
      simp only [recoverColumns, Reader.pure_ok, List.length_eq_zero_iff, exists_eq_left]
      simp [chunkEntries, hc, eq_comm]
  | succ n ih =>
      simp only [recoverColumns, Reader.bind_ok, recoverColumn_ok hfit, Reader.pure_ok]
      constructor
      · intro h
        obtain ⟨_, _, ⟨chunk, hvalid, hname, hat, rfl, rfl⟩, _, _, hrest, rfl, rfl⟩ := h
        obtain ⟨chunks, rfl, hvalids, hnodup, hnames, hats, rfl, rfl⟩ := (ih hat.le).1 hrest
        refine ⟨chunk :: chunks, rfl, List.forall_mem_cons.2 ⟨hvalid, hvalids⟩, ?_,
          List.forall_mem_cons.2 ⟨hname, fun c hc => ?_⟩, ?_, rfl, ?_⟩
        · rw [List.map_cons, List.nodup_cons]
          refine ⟨?_, hnodup⟩
          intro hmem
          obtain ⟨c, hc, heq⟩ := List.mem_map.1 hmem
          exact hnames c hc (by rw [heq]; exact List.mem_cons_self)
        · exact fun hmem => hnames c hc (List.mem_cons_of_mem _ hmem)
        · rw [List.flatMap_cons, at_append]
          exact ⟨hat, hats⟩
        · rw [List.flatMap_cons, List.length_append]
          omega
      · intro h
        obtain ⟨chunks, hlen, hvalids, hnodup, hnames, hat, rfl, rfl⟩ := h
        cases chunks with
        | nil => cases hlen
        | cons chunk chunks =>
            rw [List.flatMap_cons, at_append] at hat
            rw [List.map_cons, List.nodup_cons] at hnodup
            refine ⟨_, _, ⟨chunk, hvalids chunk List.mem_cons_self,
              hnames chunk List.mem_cons_self, hat.1, rfl, rfl⟩, _, _,
              (ih hat.1.le).2 ⟨chunks, by simpa using hlen,
                fun c hc => hvalids c (List.mem_cons_of_mem _ hc), hnodup.2, ?_, hat.2, rfl, ?_⟩,
              rfl, rfl⟩
            · intro c hc hmem
              rcases List.mem_cons.1 hmem with heq | hmem
              · exact hnodup.1 (List.mem_map.2 ⟨c, hc, heq⟩)
              · exact hnames c (List.mem_cons_of_mem _ hc) hmem
            · rw [List.flatMap_cons, List.length_append]
              omega

theorem mul_length_le_chunks (chunks : List EncodedColumnChunk) :
    chunks.length * 4 ≤ (chunks.flatMap chunkBytes).length := by
  induction chunks with
  | nil => simp
  | cons chunk chunks ih =>
      rw [List.flatMap_cons, List.length_append, List.length_cons, length_chunkBytes]
      omega

/-- What the checksum covers, field by field. -/
theorem RowGroup.at_body {data : List UInt8} {c : ℕ} {group : RowGroup} :
    At data c group.body ↔ At data c rowGroupMagic ∧ At data (c + 4) (le64 group.index) ∧
      At data (c + 12) (le64 group.firstRowIndex) ∧ At data (c + 20) (le64 group.rowCount) ∧
      At data (c + 28) (le64 group.rawSize) ∧
      At data (c + 36) (le32 (UInt32.ofNat group.chunks.length)) ∧
      At data (c + 40) (group.chunks.flatMap chunkBytes) := by
  simp only [RowGroup.body, rowGroupHeader, at_append, List.length_append, length_le64,
    length_le32, Nat.add_assoc, show rowGroupMagic.length = 4 from rfl, Nat.reduceAdd, and_assoc]

theorem RowGroup.at_bytes [Crc32Fast] {data : List UInt8} {c : ℕ} {group : RowGroup} :
    At data c group.bytes ↔
      At data c group.body ∧ At data (c + group.body.length) (le32 (checksum group.body)) := by
  rw [RowGroup.bytes, at_append]

theorem RowGroup.length_body (group : RowGroup) :
    group.body.length = 40 + (group.chunks.flatMap chunkBytes).length := by
  rw [RowGroup.body, List.length_append, length_rowGroupHeader]
  rfl

/-- **Scanning is exact**: a row group is recovered from the bytes of a well-formed row group with
the expected numbers, and from no others. -/
theorem recoverRowGroup_ok [Crc32Fast] {data : List UInt8} {start next : ℕ}
    {expectedIndex expectedFirstRow : UInt64} {entry : RowGroupIndexEntry} (hfit : Fits data) :
    recoverRowGroup data start expectedIndex expectedFirstRow = .ok (entry, next) ↔
      ∃ group : RowGroup, group.WellFormed ∧ group.index = expectedIndex ∧
        group.firstRowIndex = expectedFirstRow ∧ At data start group.bytes ∧
        entry = group.entry start ∧ next = start + group.bytes.length := by
  simp only [recoverRowGroup, readRowGroup, readBytes, Reader.bind_ok, readExact_ok hfit,
    readUInt64_ok hfit, readUInt32_ok hfit, Reader.lift_ok, failIf_ok, not_not, not_or, not_lt,
    Reader.remaining_ok, Reader.cursor_ok, Reader.input_ok, Bool.not_eq_false, verify_eq_true,
    tryU64_ok, Reader.pure_ok, and_assoc, exists_and_left, exists_eq_left, exists_eq_left',
    exists_const, show rowGroupMagic.length = 4 from rfl]
  simp only [Nat.add_assoc, Nat.reduceAdd]
  constructor
  · intro h
    obtain ⟨magic, h₀, -, rfl, index, h₁, rfl, firstRow, h₂, rfl, rowCount, h₃, hne, rawSize, h₄,
      columnCount, h₅, hmax, -, columns, _, hcols, sum, h₆, hsum, offset, hoff, len, hlen, rfl,
      rfl⟩ := h
    obtain ⟨chunks, hcount, hvalids, hnodup, -, h₇, rfl, rfl⟩ :=
      (recoverColumns_ok hfit (by have := h₅.le; rw [length_le32] at this; omega)).1 hcols
    have hword : UInt32.ofNat chunks.length = columnCount := by
      rw [hcount, UInt32.ofNat_toNat]
    have hbody : At data start (RowGroup.body ⟨index, firstRow, rowCount, rawSize, chunks⟩) := by
      rw [RowGroup.at_body, hword]
      exact ⟨h₀, h₁, h₂, h₃, h₄, h₅, h₇⟩
    have hblen : (RowGroup.body ⟨index, firstRow, rowCount, rawSize, chunks⟩).length =
      40 + (chunks.flatMap chunkBytes).length := RowGroup.length_body _
    have hslice := hbody.slice
    rw [hblen] at hslice
    rw [show start + 40 + (chunks.flatMap chunkBytes).length - start =
      40 + (chunks.flatMap chunkBytes).length by omega, hslice] at hsum
    refine ⟨⟨index, firstRow, rowCount, rawSize, chunks⟩,
      ⟨hne, hvalids, hnodup, by rw [hcount]; exact hmax⟩, rfl, rfl, ?_, ?_, ?_⟩
    · rw [RowGroup.at_bytes, hblen, ← hsum, ← Nat.add_assoc]
      exact ⟨hbody, h₆⟩
    · rw [RowGroup.entry, eq_ofNat hoff, eq_ofNat hlen, hblen, checksumLen]
      congr 2
      omega
    · rw [RowGroup.length_bytes, hblen, checksumLen]
      omega
  · intro h
    obtain ⟨group, hwell, rfl, rfl, hat, rfl, rfl⟩ := h
    obtain ⟨hbody, hsum⟩ := RowGroup.at_bytes.1 hat
    have hslice := hbody.slice
    have hblen := group.length_body
    obtain ⟨h₀, h₁, h₂, h₃, h₄, h₅, h₇⟩ := RowGroup.at_body.1 hbody
    have hmax := hwell.length_le
    have hcount : (UInt32.ofNat group.chunks.length).toNat = group.chunks.length := by
      have : maxCollectionEntries < 2 ^ 32 := by decide
      rw [UInt32.toNat_ofNat', Nat.mod_eq_of_lt (by omega)]
    have hmin := mul_length_le_chunks group.chunks
    have hle := hat.le
    rw [RowGroup.length_bytes, checksumLen, hblen] at hle
    rw [hblen] at hsum hslice
    rw [Fits, wordSize] at hfit
    refine ⟨_, h₀, rfl, rfl, _, h₁, rfl, _, h₂, rfl, _, h₃, hwell.rowCount_ne, _, h₄, _,
      h₅, by omega, ?_, _, start + 40 + (group.chunks.flatMap chunkBytes).length,
      (recoverColumns_ok hfit (by omega)).2 ⟨group.chunks, hcount.symm, hwell.chunks, hwell.nodup,
        by simp, h₇, rfl, rfl⟩, checksum group.body, ?_, ?_, UInt64.ofNat start,
      toNat_ofNat (by omega), UInt64.ofNat (group.body.length + checksumLen), ?_, rfl, ?_⟩
    · rw [Nat.le_div_iff_mul_le (by decide), hcount]
      omega
    · rw [Nat.add_assoc]
      exact hsum
    · rw [show start + 40 + (group.chunks.flatMap chunkBytes).length - start =
        40 + (group.chunks.flatMap chunkBytes).length by omega, hslice]
    · rw [hblen, checksumLen, toNat_ofNat (by omega)]
      omega
    · rw [RowGroup.length_bytes, hblen, checksumLen]
      omega

/-! ### Row groups are self-delimiting -/

/-- A record has one encoding, and an encoding is of one record. -/
theorem encodeColumnMetadata_inj {metadata metadata' : ColumnChunkMetadata} {bytes : List UInt8}
    (hfit : Fits bytes) (h : encodeColumnMetadata metadata = .ok bytes)
    (h' : encodeColumnMetadata metadata' = .ok bytes) : metadata = metadata' := by
  have hdec := (decodeColumnMetadata_ok hfit).2 ⟨_, h, List.prefix_rfl, rfl⟩
  have hdec' := (decodeColumnMetadata_ok hfit).2 ⟨_, h', List.prefix_rfl, rfl⟩
  rw [hdec] at hdec'
  cases hdec'
  rfl

theorem ChunkValid.unique {rowCount rowCount' : UInt64} {chunk chunk' : EncodedColumnChunk}
    {data : List UInt8} {c : ℕ} (h : ChunkValid rowCount chunk) (h' : ChunkValid rowCount' chunk')
    (hat : At data c (chunkBytes chunk)) (hat' : At data c (chunkBytes chunk')) :
    chunk = chunk' := by
  rw [chunkBytes, at_append, at_append, length_le32] at hat hat'
  obtain ⟨h₁, h₂, h₃⟩ := hat
  obtain ⟨h₁', h₂', h₃'⟩ := hat'
  have hlt := h.length_lt
  have hlt' := h'.length_lt
  have hlen : (metadataBytes chunk.metadata).length = (metadataBytes chunk'.metadata).length := by
    have hword := congrArg UInt32.toNat (le32_unique h₁ h₁')
    rwa [UInt32.toNat_ofNat', UInt32.toNat_ofNat', Nat.mod_eq_of_lt hlt,
      Nat.mod_eq_of_lt hlt'] at hword
  have hbytes := h₂.eq_of_length h₂' hlen
  have hfit : Fits (metadataBytes chunk.metadata) := by
    rw [Fits, wordSize]
    omega
  have hmeta : chunk.metadata = chunk'.metadata := by
    have henc' := h'.encodes
    rw [← hbytes] at henc'
    exact encodeColumnMetadata_inj hfit h.encodes henc'
  have hpayload : chunk.payload = chunk'.payload := by
    rw [← hbytes] at h₃'
    refine h₃.eq_of_length h₃' ?_
    rw [← h.payload, ← h'.payload, hmeta]
  obtain ⟨metadata, payload⟩ := chunk
  cases hmeta
  cases hpayload
  rfl

theorem chunks_unique {rowCount rowCount' : UInt64} {chunks chunks' : List EncodedColumnChunk}
    {data : List UInt8} {c : ℕ} (hlen : chunks.length = chunks'.length)
    (h : ∀ chunk ∈ chunks, ChunkValid rowCount chunk)
    (h' : ∀ chunk ∈ chunks', ChunkValid rowCount' chunk)
    (hat : At data c (chunks.flatMap chunkBytes)) (hat' : At data c (chunks'.flatMap chunkBytes)) :
    chunks = chunks' := by
  induction chunks generalizing chunks' c with
  | nil => exact (List.eq_nil_of_length_eq_zero hlen.symm).symm
  | cons chunk chunks ih =>
      cases chunks' with
      | nil => cases hlen
      | cons chunk' chunks' =>
          rw [List.flatMap_cons, at_append] at hat hat'
          obtain rfl := (h chunk List.mem_cons_self).unique (h' chunk' List.mem_cons_self) hat.1
            hat'.1
          rw [ih (by simpa using hlen) (fun c hc => h c (List.mem_cons_of_mem _ hc))
            (fun c hc => h' c (List.mem_cons_of_mem _ hc)) hat.2 hat'.2]

/-- **Row groups are self-delimiting**: at most one well-formed row group is at a position. -/
theorem RowGroup.WellFormed.unique [Crc32Fast] {group group' : RowGroup} {data : List UInt8} {c : ℕ}
    (h : group.WellFormed) (h' : group'.WellFormed) (hat : At data c group.bytes)
    (hat' : At data c group'.bytes) : group = group' := by
  obtain ⟨-, h₁, h₂, h₃, h₄, h₅, h₆⟩ := RowGroup.at_body.1 (RowGroup.at_bytes.1 hat).1
  obtain ⟨-, h₁', h₂', h₃', h₄', h₅', h₆'⟩ := RowGroup.at_body.1 (RowGroup.at_bytes.1 hat').1
  have hlt : maxCollectionEntries < 2 ^ 32 := by decide
  have hlen : group.chunks.length = group'.chunks.length := by
    have hword := congrArg UInt32.toNat (le32_unique h₅ h₅')
    rwa [UInt32.toNat_ofNat', UInt32.toNat_ofNat', Nat.mod_eq_of_lt (by have := h.length_le; omega),
      Nat.mod_eq_of_lt (by have := h'.length_le; omega)] at hword
  have hchunks := chunks_unique hlen h.chunks h'.chunks h₆ h₆'
  have hindex := le64_unique h₁ h₁'
  have hfirst := le64_unique h₂ h₂'
  have hrows := le64_unique h₃ h₃'
  have hraw := le64_unique h₄ h₄'
  cases group
  cases hindex
  cases hfirst
  cases hrows
  cases hraw
  cases hchunks
  rfl

/-! ### The check passes on row groups -/

/-- A checked slice is what is at its place. -/
theorem checkedSlice_ok {data bs : List UInt8} {offset len : UInt64} {err : String}
    (hfit : Fits data) : checkedSlice data offset len err = .ok bs ↔
      At data offset.toNat bs ∧ bs.length = len.toNat := by
  simp only [checkedSlice, bind_ok, tryUsize_eq, Except.ok.injEq, okOr_ok, usizeAdd_eq_some,
    failIf_ok, not_lt, pure_ok, exists_eq_left', and_assoc, exists_and_left, exists_const]
  constructor
  · intro h
    obtain ⟨-, hle, rfl⟩ := h
    refine ⟨at_take_drop hle, ?_⟩
    rw [List.length_take, List.length_drop]
    omega
  · intro h
    obtain ⟨hat, hlen⟩ := h
    have hle := hat.le
    have hslice := hat.slice
    rw [Fits] at hfit
    rw [hlen] at hle hslice
    exact ⟨by omega, hle, hslice⟩

theorem length_chunkEntries (offset : ℕ) (chunks : List EncodedColumnChunk) :
    (chunkEntries offset chunks).length = chunks.length := by
  induction chunks generalizing offset with
  | nil => rfl
  | cons chunk chunks ih => rw [chunkEntries, List.length_cons, List.length_cons, ih]

/-- The checksum of a row group passes. -/
theorem verifyChecksum_entry [Crc32Fast] {data : List UInt8} {entry : RowGroupIndexEntry}
    {group : RowGroup} (hfit : Fits data) (hat : At data entry.rowGroupOffset.toNat group.bytes)
    (hlen : group.bytes.length = entry.rowGroupLen.toNat) (verifyFullChecksum : Bool) :
    verifyChecksum data entry verifyFullChecksum = .ok () := by
  have htake : group.bytes.take (group.bytes.length - checksumLen) = group.body := by
    rw [RowGroup.length_bytes, Nat.add_sub_cancel]
    exact List.take_left' rfl
  have hdrop : group.bytes.drop (group.bytes.length - checksumLen) =
      le32 (checksum group.body) := by
    rw [RowGroup.length_bytes, Nat.add_sub_cancel]
    exact List.drop_left' rfl
  have hslice : checkedSlice data entry.rowGroupOffset entry.rowGroupLen
      "cmp4 row group is truncated" = .ok group.bytes := (checkedSlice_ok hfit).2 ⟨hat, hlen⟩
  cases verifyFullChecksum with
  | false => rfl
  | true => simp [verifyChecksum, hslice, htake, hdrop]

/-- The header check is exact. -/
theorem checkRowGroupHeader_ok {entry : RowGroupIndexEntry} {data : List UInt8} {c c' : ℕ}
    {u : Unit} (hfit : Fits data) : checkRowGroupHeader entry data c = .ok (u, c') ↔
      ∃ rawSize columnCount, At data c (rowGroupHeader entry.rowGroupIndex entry.firstRowIndex
        entry.rowCount rawSize columnCount) ∧ columnCount.toNat = entry.columns.length ∧
        c' = c + rowGroupHeaderLen := by
  simp only [checkRowGroupHeader, readBytes, Reader.bind_ok, readExact_ok hfit, readUInt64_ok hfit,
    readUInt32_ok hfit, Reader.lift_ok, failIf_ok, not_not, rowGroupHeader, at_append, length_le64,
    show rowGroupMagic.length = 4 from rfl, rowGroupHeaderLen, and_assoc, exists_and_left,
    exists_eq_left, exists_eq_left', exists_const]
  constructor
  · intro h
    obtain ⟨_, h₀, -, rfl, _, h₁, rfl, _, h₂, rfl, _, h₃, rfl, rawSize, h₄, columnCount, h₅, hcols,
      rfl⟩ := h
    exact ⟨h₀, h₁, h₂, h₃, rawSize, h₄, columnCount, h₅, hcols, rfl⟩
  · intro h
    obtain ⟨h₀, h₁, h₂, h₃, rawSize, h₄, columnCount, h₅, hcols, rfl⟩ := h
    exact ⟨_, h₀, rfl, rfl, _, h₁, rfl, _, h₂, rfl, _, h₃, rfl, rawSize, h₄, columnCount, h₅, hcols,
      rfl⟩

/-- **The reader's check passes on well-formed row groups.** -/
theorem verifyRowGroup_entry [Crc32Fast] {data : List UInt8} {start : ℕ} {group : RowGroup}
    (hfit : Fits data) (hwell : group.WellFormed) (hat : At data start group.bytes)
    (verifyFullChecksum : Bool) :
    verifyRowGroup data (group.entry start) verifyFullChecksum = .ok () := by
  have hle := hat.le
  have hlt : maxCollectionEntries < 2 ^ 32 := by decide
  have hcount := hwell.length_le
  have hblen := group.length_body
  have hlenb := group.length_bytes
  rw [checksumLen] at hlenb
  have hword := hfit
  rw [Fits, wordSize] at hword
  have hoff : (group.entry start).rowGroupOffset.toNat = start := toNat_ofNat (by omega)
  have hlen : group.bytes.length = (group.entry start).rowGroupLen.toNat := by
    rw [RowGroup.entry, toNat_ofNat (by rw [checksumLen]; omega), RowGroup.length_bytes]
  have hsum := verifyChecksum_entry hfit (by rw [hoff]; exact hat) hlen verifyFullChecksum
  have hheader : At data start (rowGroupHeader group.index group.firstRowIndex group.rowCount
      group.rawSize (UInt32.ofNat group.chunks.length)) := by
    have hbody := (RowGroup.at_bytes.1 hat).1
    rw [RowGroup.body, at_append] at hbody
    exact hbody.1
  have hcheck : checkedSlice data (group.entry start).rowGroupOffset
      (UInt64.ofNat rowGroupHeaderLen) "cmp4 row group header is truncated" =
        .ok (rowGroupHeader group.index group.firstRowIndex group.rowCount group.rawSize
          (UInt32.ofNat group.chunks.length)) :=
    (checkedSlice_ok hfit).2 ⟨by rw [hoff]; exact hheader, by
      rw [length_rowGroupHeader]
      rfl⟩
  have hcols : (UInt32.ofNat group.chunks.length).toNat = (group.entry start).columns.length := by
    rw [RowGroup.entry, length_chunkEntries, UInt32.toNat_ofNat', Nat.mod_eq_of_lt (by omega)]
  have hfit' : Fits (rowGroupHeader group.index group.firstRowIndex group.rowCount
      group.rawSize (UInt32.ofNat group.chunks.length)) := by
    rw [Fits, length_rowGroupHeader]
    decide
  simp only [verifyRowGroup, bind_ok, failIf_ok, hcheck, hsum, Except.ok.injEq, exists_eq_left',
    Prod.exists, checkRowGroupHeader_ok hfit', pure_ok, exists_const]
  refine ⟨?_, trivial, _, ⟨_, _, at_self _, hcols, rfl⟩, trivial⟩
  rw [← hlen, rowGroupHeaderLen, checksumLen]
  omega

/-! ### Entries are valid -/

/-- The entries of chunks that follow each other from an offset stay behind it and before the end
of the chunks. -/
theorem chunkEntries_valid {rowCount : UInt64} {chunks : List EncodedColumnChunk} {offset : ℕ}
    (hvalid : ∀ chunk ∈ chunks, ChunkValid rowCount chunk)
    (hword : offset + (chunks.flatMap chunkBytes).length < 2 ^ 64)
    {entry : ColumnIndexEntry} (h : entry ∈ chunkEntries offset chunks) :
    entry.name ≠ "" ∧ entry.nullCount ≤ entry.valueCount ∧
      offset ≤ entry.metadataOffset.toNat ∧ offset ≤ entry.payloadOffset.toNat ∧
      entry.metadataOffset.toNat + entry.metadataLen.toNat ≤
        offset + (chunks.flatMap chunkBytes).length ∧
      entry.payloadOffset.toNat + entry.payloadLen.toNat ≤
        offset + (chunks.flatMap chunkBytes).length := by
  induction chunks generalizing offset with
  | nil => cases h
  | cons chunk chunks ih =>
      have hchunk := hvalid chunk List.mem_cons_self
      have hlen := length_chunkBytes chunk
      rw [List.flatMap_cons, List.length_append] at hword ⊢
      rcases List.mem_cons.1 h with rfl | hmem
      · have hmeta := encodeColumnMetadata_valid hchunk.encodes
        have hpayload := hchunk.payload
        refine ⟨hmeta.name_ne, hmeta.null_le, ?_, ?_, ?_, ?_⟩
        · rw [chunkEntry, toNat_ofNat (by omega)]
          omega
        · rw [chunkEntry, toNat_ofNat (by omega)]
          omega
        · rw [chunkEntry, toNat_ofNat (by omega), toNat_ofNat (by omega)]
          omega
        · rw [chunkEntry, toNat_ofNat (by omega), hpayload]
          omega
      · obtain ⟨hname, hnull, hmo, hpo, hme, hpe⟩ :=
          ih (fun c hc => hvalid c (List.mem_cons_of_mem _ hc)) (by omega) hmem
        exact ⟨hname, hnull, by omega, by omega, by omega, by omega⟩

theorem names_chunkEntries (offset : ℕ) (chunks : List EncodedColumnChunk) :
    (chunkEntries offset chunks).map (·.name) = chunks.map (·.metadata.name) := by
  induction chunks generalizing offset with
  | nil => rfl
  | cons chunk chunks ih => rw [chunkEntries, List.map_cons, List.map_cons, ih, chunkEntry]

section

variable [Crc32Fast] {group : RowGroup} {offset : ℕ}

theorem RowGroup.toNat_rowGroupLen (hword : offset + group.bytes.length < 2 ^ 64) :
    (group.entry offset).rowGroupLen.toNat = group.bytes.length := by
  rw [RowGroup.length_bytes] at hword ⊢
  rw [RowGroup.entry, toNat_ofNat (by omega)]

theorem RowGroup.toNat_rowGroupOffset (hword : offset + group.bytes.length < 2 ^ 64) :
    (group.entry offset).rowGroupOffset.toNat = offset := by
  rw [RowGroup.entry, toNat_ofNat (by omega)]

/-- The entry of a well-formed row group is valid. -/
theorem RowGroup.WellFormed.entry_valid (h : group.WellFormed)
    (hword : offset + group.bytes.length < 2 ^ 64) : (group.entry offset).Valid := by
  have hlen := group.length_bytes
  have hbody := group.length_body
  rw [checksumLen] at hlen
  have hoff := RowGroup.toNat_rowGroupOffset hword
  have hrlen := RowGroup.toNat_rowGroupLen hword
  refine ⟨by rw [hoff, hrlen]; exact hword, ?_, ?_⟩
  · intro column hcol
    obtain ⟨hname, hnull, hmo, hpo, hme, hpe⟩ :=
      chunkEntries_valid h.chunks (by rw [rowGroupHeaderLen]; omega) hcol
    rw [rowGroupHeaderLen] at hmo hpo hme hpe
    refine ⟨hname, hnull, ⟨?_, ?_⟩, ?_, ?_⟩
    · omega
    · omega
    · omega
    · omega
  · rw [RowGroup.entry, names_chunkEntries]
    exact h.nodup

end

/-! ### The writer writes row groups -/

theorem chunkEntries_append (offset : ℕ) (chunks chunks' : List EncodedColumnChunk) :
    chunkEntries offset (chunks ++ chunks') = chunkEntries offset chunks ++
      chunkEntries (offset + (chunks.flatMap chunkBytes).length) chunks' := by
  induction chunks generalizing offset with
  | nil => rfl
  | cons chunk chunks ih =>
      rw [List.cons_append, chunkEntries, chunkEntries, ih, List.flatMap_cons, List.length_append,
        Nat.add_assoc, List.cons_append]

theorem absoluteOffset_ok {base offset : UInt64} {relative : ℕ}
    (h : absoluteOffset base relative = .ok offset) : offset.toNat = base.toNat + relative := by
  simp only [absoluteOffset, bind_ok, tryU64_ok, okOr_ok, checkedAdd_eq_some] at h
  obtain ⟨v, rfl, h⟩ := h
  exact h

/-- Encoded columns carry the names of the columns. -/
theorem names_eq {rows : List Map} {columns : List ColumnSchema} {chunks : List EncodedColumnChunk}
    (h : List.Forall₂ (fun column chunk => encodeColumn column rows = .ok chunk) columns chunks) :
    chunks.map (·.metadata.name) = columns.map (·.name) := by
  induction h with
  | nil => rfl
  | cons hchunk _ ih =>
      obtain ⟨codec, -, hexplicit⟩ := encodeColumn_explicit hchunk
      rw [List.map_cons, List.map_cons, ih, (encodeExplicit_describes hexplicit).name_eq]

/-- What the writer has written after some columns. -/
structure RowGroupWriter.Wrote (s : RowGroupWriter) (rows : List Map) (offset : ℕ)
    (header : List UInt8) (columns : List ColumnSchema) (chunks : List EncodedColumnChunk) :
    Prop where
  encoded : List.Forall₂ (fun column chunk => encodeColumn column rows = .ok chunk) columns chunks
  rowGroup_eq : s.rowGroup = header ++ chunks.flatMap chunkBytes
  entries_eq : s.columnEntries = chunkEntries (offset + header.length) chunks
  valid : ∀ rowCount : UInt64, rowCount.toNat = rows.length →
    ∀ chunk ∈ chunks, ChunkValid rowCount chunk

/-- The chunk of one more column. -/
theorem encodeRowGroupColumn_wrote {rows : List Map} {rowGroupOffset : UInt64}
    {s s' : RowGroupWriter} {header : List UInt8} {column : ColumnSchema}
    {columns : List ColumnSchema} {chunks : List EncodedColumnChunk}
    (hs : s.Wrote rows rowGroupOffset.toNat header columns chunks)
    (h : encodeRowGroupColumn rows rowGroupOffset s column = .ok s') :
    ∃ chunk,
      s'.Wrote rows rowGroupOffset.toNat header (columns ++ [column]) (chunks ++ [chunk]) := by
  simp only [encodeRowGroupColumn, bind_ok, tryU32_ok, tryU64_ok, pure_ok] at h
  obtain ⟨chunk, hchunk, metadata, hmeta, metadataLen, hmlen, metadataOffset, hmoff, payloadOffset,
    hpoff, payloadLen, hplen, rfl⟩ := h
  obtain ⟨codec, -, hexplicit⟩ := encodeColumn_explicit hchunk
  have hdesc := encodeExplicit_describes hexplicit
  have hbytes := metadataBytes_eq hmeta
  have hlt := metadataLen.toNat_lt
  have hword : UInt32.ofNat metadata.length = metadataLen := by
    rw [← hmlen, UInt32.ofNat_toNat]
  have hmoff' := absoluteOffset_ok hmoff
  have hpoff' := absoluteOffset_ok hpoff
  rw [hs.rowGroup_eq] at hmoff' hpoff'
  simp only [List.length_append, length_le32] at hmoff' hpoff'
  refine ⟨chunk, ?_, ?_, ?_, ?_⟩
  · exact List.rel_append hs.encoded (List.Forall₂.cons hchunk List.Forall₂.nil)
  · rw [hs.rowGroup_eq, List.flatMap_append, List.flatMap_singleton, chunkBytes, hbytes, hword]
    simp only [List.append_assoc]
  · have hmo : metadataOffset = UInt64.ofNat (rowGroupOffset.toNat + header.length +
        (chunks.flatMap chunkBytes).length + 4) := eq_ofNat (by omega)
    have hpo : payloadOffset = UInt64.ofNat (rowGroupOffset.toNat + header.length +
        (chunks.flatMap chunkBytes).length + 4 + metadata.length) := eq_ofNat (by omega)
    have hml : metadataLen.toUInt64 = UInt64.ofNat metadata.length := by
      rw [← UInt64.toNat_inj, UInt32.toNat_toUInt64, hmlen, toNat_ofNat (by omega)]
    have hpl : payloadLen = chunk.metadata.compressedSize :=
      UInt64.toNat_inj.1 (hplen.trans hdesc.compressedSize_eq.symm)
    rw [hs.entries_eq, chunkEntries_append, chunkEntries, chunkEntry, chunkEntries, hbytes,
      hdesc.name_eq, hmo, hpo, hml, hpl]
  · intro rowCount hrows c hc
    rcases List.mem_append.1 hc with hc | hc
    · exact hs.valid rowCount hrows c hc
    · obtain rfl := List.mem_singleton.1 hc
      refine ⟨by rw [hbytes]; exact hmeta, by rw [hbytes]; omega, ?_, hdesc.statistics,
        hdesc.compressedSize_eq⟩
      rw [← UInt64.toNat_inj, hdesc.valueCount_eq, hrows]

/-- **The writer writes a well-formed row group**, and its entry. -/
theorem encodeRowGroup_ok [Crc32Fast] {rowGroupIndex firstRowIndex : ℕ} {rows : List Map}
    {columns : List ColumnSchema} {rowGroupOffset : UInt64} {bytes : List UInt8}
    {entry : RowGroupIndexEntry} (hrows : rows ≠ []) (hnodup : (columns.map (·.name)).Nodup)
    (hmax : columns.length ≤ maxCollectionEntries)
    (h : encodeRowGroup rowGroupIndex firstRowIndex rows columns rowGroupOffset =
      .ok (bytes, entry)) :
    ∃ group : RowGroup, group.WellFormed ∧ group.index.toNat = rowGroupIndex ∧
      group.firstRowIndex.toNat = firstRowIndex ∧ group.rowCount.toNat = rows.length ∧
      List.Forall₂ (fun column chunk => encodeColumn column rows = .ok chunk) columns
        group.chunks ∧
      bytes = group.bytes ∧ entry = group.entry rowGroupOffset.toNat := by
  simp only [encodeRowGroup, bind_ok, tryU64_ok, tryU32_ok, pure_ok, Prod.mk.injEq] at h
  obtain ⟨rowCount, hcount, columnCount, hcols, index, hindex, firstRow, hfirst, s, hfold, len,
    hlen, rfl, rfl⟩ := h
  have hwrote := foldlM_invariant
    (P := fun done s => ∃ chunks, RowGroupWriter.Wrote s rows rowGroupOffset.toNat
      (rowGroupHeader index firstRow rowCount 0 columnCount) done chunks)
    (fun done column s s' hs hstep => by
      obtain ⟨chunks, hs⟩ := hs
      obtain ⟨chunk, hs'⟩ := encodeRowGroupColumn_wrote hs hstep
      exact ⟨_, hs'⟩)
    ⟨[], List.Forall₂.nil, by simp, rfl, by simp⟩ hfold
  obtain ⟨chunks, hs⟩ := hwrote
  have hclen := hs.encoded.length_eq
  have hword : UInt32.ofNat chunks.length = columnCount := by
    rw [← hclen, ← hcols, UInt32.ofNat_toNat]
  have hnames : chunks.map (·.metadata.name) = columns.map (·.name) := names_eq hs.encoded
  have hne : rowCount ≠ 0 := by
    intro hzero
    rw [hzero] at hcount
    exact hrows (List.eq_nil_of_length_eq_zero hcount.symm)
  refine ⟨⟨index, firstRow, rowCount, 0, chunks⟩, ⟨hne, hs.valid rowCount hcount, ?_, ?_⟩, hindex,
    hfirst, hcount, hs.encoded, ?_, ?_⟩
  · rw [hnames]
    exact hnodup
  · rw [← hclen]
    exact hmax
  · rw [RowGroup.bytes, RowGroup.body, hword, hs.rowGroup_eq]
  · rw [hs.rowGroup_eq, List.length_append, length_le32] at hlen
    rw [hs.entries_eq, length_rowGroupHeader, RowGroup.entry, UInt64.ofNat_toNat, RowGroup.body,
      hword, eq_ofNat hlen, checksumLen]

end CompactCore.Io.V4
