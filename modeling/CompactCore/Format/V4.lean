/-
**`CMP4` footers.**

A `CMP4` file ends in an index of its row groups.  A fixed-width trailer behind the index says where
the index starts, how long it is, and what its checksum is.  The index repeats, for every column
chunk, where its metadata and its payload are, and what the metadata counts.

Main definitions:

* `CompactCore.Format.V4.FooterIndex`, `CompactCore.Format.V4.FooterTrailer` — the records;
* `CompactCore.Format.V4.encodeFooter`, `CompactCore.Format.V4.appendFooter` — writing;
* `CompactCore.Format.V4.decodeFooterTrailer`, `CompactCore.Format.V4.decodeFooter` — reading;
* `CompactCore.Format.V4.Sequential`, `CompactCore.Format.V4.RowGroupIndexEntry.Valid` — what an
  index says of its row groups.

Main results:

* `CompactCore.Format.V4.validateFooterIndex_ok` — what the index check establishes;
* `CompactCore.Format.V4.decodeFooter_ok` — **reading a footer is exact**: an index is read from the
  files that end in its encoding, and from no others.
-/

import CompactCore.Format.V3

set_option relaxedAutoImplicit false
set_option autoImplicit false

namespace CompactCore.Format.V4

open Wire CompactError

/-! ### Records -/

/-- `b"IDX4"`. -/
def footerMagic : List UInt8 := [0x49, 0x44, 0x58, 0x34]

def footerTrailerLen : ℕ := 24

structure ColumnIndexEntry where
  name : String
  metadataOffset : UInt64
  metadataLen : UInt64
  payloadOffset : UInt64
  payloadLen : UInt64
  valueCount : UInt64
  nullCount : UInt64
  statisticsMetadata : List UInt8
  deriving DecidableEq, Repr

structure RowGroupIndexEntry where
  rowGroupIndex : UInt64
  firstRowIndex : UInt64
  rowCount : UInt64
  rowGroupOffset : UInt64
  rowGroupLen : UInt64
  columns : List ColumnIndexEntry
  deriving DecidableEq, Repr

structure FooterIndex where
  totalRowCount : UInt64
  rowGroups : List RowGroupIndexEntry
  deriving DecidableEq, Repr

structure FooterTrailer where
  footerOffset : UInt64
  footerLen : UInt64
  footerChecksum : UInt32
  deriving DecidableEq, Repr

def encodeEmptyHeader : List UInt8 := emptyHeader magicV4 versionV4

def decodeHeader (data : List UInt8) : Result FileHeader := readHeader "cmp4" magicV4 versionV4 data

/-! ### Validation -/

def validateColumnIndex (column : ColumnIndexEntry) : Result Unit := do
  failIf (column.name = "") (invalidInput "cmp4 column name must not be empty")
  failIf (column.valueCount < column.nullCount)
    (invalidInput "cmp4 null count exceeds value count")

def checkedRangeEnd (offset len : UInt64) (err : String) : Result UInt64 :=
  okOr (invalidInput err) (checkedAdd offset len)

def ensureBeforeFooter (rangeEnd : UInt64) (footerOffset : Option UInt64) (err : String) :
    Result Unit :=
  failIf (footerOffset.any (· < rangeEnd) = true) (invalidInput err)

def ensureRangeInsideRowGroup (start rangeEnd : UInt64) (rowGroup : RowGroupIndexEntry)
    (err : String) : Result Unit := do
  let rowGroupStart := rowGroup.rowGroupOffset
  let rowGroupEnd ← checkedRangeEnd rowGroup.rowGroupOffset rowGroup.rowGroupLen
    "cmp4 row group range overflow"
  failIf (start < rowGroupStart ∨ rowGroupEnd < rangeEnd) (invalidInput err)

/-- The inner loop of the index check, with the names before the current column. -/
def validateColumnsFrom (rowGroup : RowGroupIndexEntry) (names : List String) :
    List ColumnIndexEntry → Result Unit
  | [] => .ok ()
  | column :: columns => do
      validateColumnIndex column
      failIf (column.name ∈ names) (invalidInput "cmp4 duplicate column in row group")
      let metadataEnd ← checkedRangeEnd column.metadataOffset column.metadataLen
        "cmp4 metadata range overflow"
      let payloadEnd ← checkedRangeEnd column.payloadOffset column.payloadLen
        "cmp4 payload range overflow"
      ensureRangeInsideRowGroup column.metadataOffset metadataEnd rowGroup
        "cmp4 metadata range is outside row group"
      ensureRangeInsideRowGroup column.payloadOffset payloadEnd rowGroup
        "cmp4 payload range is outside row group"
      validateColumnsFrom rowGroup (column.name :: names) columns

/-- The outer loop of the index check.  Returns the number of rows. -/
def validateRowGroupsFrom (footerOffset : Option UInt64) :
    ℕ → UInt64 → List RowGroupIndexEntry → Result UInt64
  | _, expectedFirstRow, [] => .ok expectedFirstRow
  | position, expectedFirstRow, rowGroup :: rowGroups => do
      failIf (rowGroup.rowGroupIndex ≠ UInt64.ofNat position)
        (invalidInput "cmp4 row group indexes must be contiguous")
      failIf (rowGroup.rowCount = 0) (invalidInput "cmp4 row group must contain rows")
      failIf (rowGroup.firstRowIndex ≠ expectedFirstRow)
        (invalidInput "cmp4 row groups must be sorted and contiguous")
      let expectedFirstRow ← okOr (invalidInput "cmp4 total row count overflow")
        (checkedAdd expectedFirstRow rowGroup.rowCount)
      let rowGroupEnd ← checkedRangeEnd rowGroup.rowGroupOffset rowGroup.rowGroupLen
        "cmp4 row group range overflow"
      ensureBeforeFooter rowGroupEnd footerOffset "cmp4 row group range is invalid"
      validateColumnsFrom rowGroup [] rowGroup.columns
      validateRowGroupsFrom footerOffset (position + 1) expectedFirstRow rowGroups

def validateFooterIndex (index : FooterIndex) (footerOffset : Option UInt64) : Result Unit := do
  let expectedFirstRow ← validateRowGroupsFrom footerOffset 0 0 index.rowGroups
  failIf (expectedFirstRow ≠ index.totalRowCount)
    (invalidInput "cmp4 total row count does not match row groups")

/-! ### Writing -/

def encodeColumnEntry (column : ColumnIndexEntry) : Result (List UInt8) := do
  let name := asBytes column.name
  let nameLen ← tryU16 name.length "cmp4 column name is too long"
  let statisticsLen ←
    tryU32 column.statisticsMetadata.length "cmp4 statistics metadata is too large"
  return le16 nameLen ++ (name ++ (le64 column.metadataOffset ++ (le64 column.metadataLen ++
    (le64 column.payloadOffset ++ (le64 column.payloadLen ++ (le64 column.valueCount ++
    (le64 column.nullCount ++ (le32 statisticsLen ++ column.statisticsMetadata))))))))

def encodeRowGroupEntry (rowGroup : RowGroupIndexEntry) : Result (List UInt8) := do
  let columnCount ← tryU32 rowGroup.columns.length "cmp4 column count is too large"
  let columns ← rowGroup.columns.mapM encodeColumnEntry
  return le64 rowGroup.rowGroupIndex ++ (le64 rowGroup.firstRowIndex ++ (le64 rowGroup.rowCount ++
    (le64 rowGroup.rowGroupOffset ++ (le64 rowGroup.rowGroupLen ++ (le32 columnCount ++
    columns.flatten)))))

/-- Encode footer index bytes without the trailer. -/
def encodeFooter (index : FooterIndex) : Result (List UInt8) := do
  validateFooterIndex index none
  let rowGroupCount ← tryU64 index.rowGroups.length "cmp4 row group count is too large"
  let rowGroups ← index.rowGroups.mapM encodeRowGroupEntry
  return le64 index.totalRowCount ++ (le64 rowGroupCount ++ rowGroups.flatten)

def encodeTrailer (trailer : FooterTrailer) : List UInt8 :=
  le64 trailer.footerOffset ++ (le64 trailer.footerLen ++ (le32 trailer.footerChecksum ++
    footerMagic))

/-- Append a checked footer and the fixed-width trailer to an encoded file. -/
def appendFooter [Crc32Fast] (file : List UInt8) (index : FooterIndex) :
    Result (List UInt8 × FooterTrailer) := do
  let footerOffset ← tryU64 file.length "cmp4 file length is too large"
  validateFooterIndex index (some footerOffset)
  let footer ← encodeFooter index
  let footerLen ← tryU64 footer.length "cmp4 footer length is too large"
  let trailer : FooterTrailer := ⟨footerOffset, footerLen, checksum32 footer⟩
  return (file ++ (footer ++ encodeTrailer trailer), trailer)

/-! ### Reading -/

def readBytes (err : String) : ℕ → Reader CompactError (List UInt8) :=
  readExact (invalidInput "cmp4 metadata length overflow") (invalidInput err)

def readTrailer : Reader CompactError FooterTrailer := do
  let footerOffset ← readUInt64 (readBytes "cmp4 footer offset is truncated")
  let footerLen ← readUInt64 (readBytes "cmp4 footer length is truncated")
  let footerChecksum ← readUInt32 (readBytes "cmp4 footer checksum is truncated")
  let magic ← readBytes "cmp4 footer magic is truncated" footerMagic.length
  failIf (magic ≠ footerMagic) (invalidInput "invalid cmp4 footer magic")
  return ⟨footerOffset, footerLen, footerChecksum⟩

/-- Decode the fixed-width trailer at the end of a file without parsing the footer body. -/
def decodeFooterTrailer (file : List UInt8) : Result FooterTrailer := do
  failIf (file.length < footerTrailerLen) (invalidInput "cmp4 footer trailer is truncated")
  let (trailer, _) ← readTrailer file (file.length - footerTrailerLen)
  return trailer

def minRowGroupEntryLen : ℕ := 44

def minColumnEntryLen : ℕ := 55

def readColumnEntry : Reader CompactError ColumnIndexEntry := do
  let nameLen ← readUInt16 (readBytes "cmp4 column name length is truncated")
  let nameBytes ← readBytes "cmp4 column name is truncated" nameLen.toNat
  let name ← okOr (invalidInput "cmp4 column name must be utf-8") (fromUtf8 nameBytes)
  let metadataOffset ← readUInt64 (readBytes "cmp4 metadata offset is truncated")
  let metadataLen ← readUInt64 (readBytes "cmp4 metadata length is truncated")
  let payloadOffset ← readUInt64 (readBytes "cmp4 payload offset is truncated")
  let payloadLen ← readUInt64 (readBytes "cmp4 payload length is truncated")
  let valueCount ← readUInt64 (readBytes "cmp4 value count is truncated")
  let nullCount ← readUInt64 (readBytes "cmp4 null count is truncated")
  let statisticsLen ← readUInt32 (readBytes "cmp4 statistics length is truncated")
  let statisticsMetadata ←
    readBytes "cmp4 statistics metadata is truncated" statisticsLen.toNat
  return {
    name := name
    metadataOffset := metadataOffset
    metadataLen := metadataLen
    payloadOffset := payloadOffset
    payloadLen := payloadLen
    valueCount := valueCount
    nullCount := nullCount
    statisticsMetadata := statisticsMetadata }

def readRowGroupEntry : Reader CompactError RowGroupIndexEntry := do
  let rowGroupIndex ← readUInt64 (readBytes "cmp4 row group index is truncated")
  let firstRowIndex ← readUInt64 (readBytes "cmp4 first row index is truncated")
  let rowCount ← readUInt64 (readBytes "cmp4 row count is truncated")
  let rowGroupOffset ← readUInt64 (readBytes "cmp4 row group offset is truncated")
  let rowGroupLen ← readUInt64 (readBytes "cmp4 row group length is truncated")
  let columnCount ← readUInt32 (readBytes "cmp4 column count is truncated")
  let remaining ← Reader.remaining
  failIf (maxCollectionEntries < columnCount.toNat ∨
      remaining / minColumnEntryLen < columnCount.toNat)
    (invalidInput "cmp4 column count exceeds footer bounds")
  let columns ← Reader.repeatRead readColumnEntry columnCount.toNat
  return {
    rowGroupIndex := rowGroupIndex
    firstRowIndex := firstRowIndex
    rowCount := rowCount
    rowGroupOffset := rowGroupOffset
    rowGroupLen := rowGroupLen
    columns := columns }

def readFooterIndex : Reader CompactError FooterIndex := do
  let totalRowCount ← readUInt64 (readBytes "cmp4 total row count is truncated")
  let rowGroupCount ← readUInt64 (readBytes "cmp4 row group count is truncated")
  let rowGroupCount ← tryUsize rowGroupCount "cmp4 row group count is too large"
  let remaining ← Reader.remaining
  failIf (maxCollectionEntries < rowGroupCount ∨ remaining / minRowGroupEntryLen < rowGroupCount)
    (invalidInput "cmp4 row group count exceeds footer bounds")
  let rowGroups ← Reader.repeatRead readRowGroupEntry rowGroupCount
  return ⟨totalRowCount, rowGroups⟩

/-- Decode the footer by reading only the fixed-width trailer first. -/
def decodeFooter [Crc32Fast] (file : List UInt8) : Result FooterIndex := do
  let trailer ← decodeFooterTrailer file
  let footerStart ← tryUsize trailer.footerOffset "cmp4 footer offset is too large"
  let footerLen ← tryUsize trailer.footerLen "cmp4 footer length is too large"
  let footerEnd ← okOr (invalidInput "cmp4 footer range overflow")
    (usizeAdd footerStart footerLen)
  failIf (file.length < footerTrailerLen) (invalidInput "cmp4 footer trailer is truncated")
  let trailerStart := file.length - footerTrailerLen
  failIf (footerEnd ≠ trailerStart) (invalidInput "cmp4 footer range is invalid")
  let footer := (file.drop footerStart).take footerLen
  failIf (checksum32 footer ≠ trailer.footerChecksum)
    (invalidInput "cmp4 footer checksum mismatch")
  let (index, cursor) ← readFooterIndex footer 0
  failIf (cursor ≠ footer.length) (invalidInput "cmp4 footer has trailing bytes")
  validateFooterIndex index (some trailer.footerOffset)
  return index

/-! ### What the index check establishes -/

/-- A range of a file lies inside a row group. -/
structure RowGroupIndexEntry.Covers (rowGroup : RowGroupIndexEntry) (offset len : UInt64) :
    Prop where
  start_le : rowGroup.rowGroupOffset.toNat ≤ offset.toNat
  end_le : offset.toNat + len.toNat ≤ rowGroup.rowGroupOffset.toNat + rowGroup.rowGroupLen.toNat

structure ColumnIndexEntry.Valid (column : ColumnIndexEntry) (rowGroup : RowGroupIndexEntry) :
    Prop where
  name_ne : column.name ≠ ""
  null_le : column.nullCount ≤ column.valueCount
  metadata : rowGroup.Covers column.metadataOffset column.metadataLen
  payload : rowGroup.Covers column.payloadOffset column.payloadLen

structure RowGroupIndexEntry.Valid (rowGroup : RowGroupIndexEntry) : Prop where
  range : rowGroup.rowGroupOffset.toNat + rowGroup.rowGroupLen.toNat < 2 ^ 64
  columns : ∀ column ∈ rowGroup.columns, column.Valid rowGroup
  nodup : (rowGroup.columns.map (·.name)).Nodup

/-- Row groups are numbered from `position`, and their rows from `firstRow`, without gaps. -/
def Sequential : ℕ → ℕ → List RowGroupIndexEntry → Prop
  | _, _, [] => True
  | position, firstRow, rowGroup :: rowGroups =>
      rowGroup.rowGroupIndex = UInt64.ofNat position ∧ rowGroup.rowCount ≠ 0 ∧
        rowGroup.firstRowIndex.toNat = firstRow ∧
        Sequential (position + 1) (firstRow + rowGroup.rowCount.toNat) rowGroups

/-- The number of rows of some row groups. -/
def rowSum (rowGroups : List RowGroupIndexEntry) : ℕ :=
  (rowGroups.map fun rowGroup => rowGroup.rowCount.toNat).sum

@[simp] theorem rowSum_nil : rowSum [] = 0 := rfl

@[simp] theorem rowSum_cons (rowGroup : RowGroupIndexEntry) (rowGroups : List RowGroupIndexEntry) :
    rowSum (rowGroup :: rowGroups) = rowGroup.rowCount.toNat + rowSum rowGroups := by
  rw [rowSum, List.map_cons, List.sum_cons]
  rfl

@[simp] theorem rowSum_append (rgs rgs' : List RowGroupIndexEntry) :
    rowSum (rgs ++ rgs') = rowSum rgs + rowSum rgs' := by
  simp [rowSum]

theorem sequential_append {position firstRow : ℕ} {rgs rgs' : List RowGroupIndexEntry} :
    Sequential position firstRow (rgs ++ rgs') ↔
      Sequential position firstRow rgs ∧
        Sequential (position + rgs.length) (firstRow + rowSum rgs) rgs' := by
  induction rgs generalizing position firstRow with
  | nil => simp [Sequential]
  | cons rg rgs ih =>
      rw [List.cons_append, Sequential, Sequential, ih, rowSum_cons, List.length_cons,
        show position + 1 + rgs.length = position + (rgs.length + 1) by omega, Nat.add_assoc]
      simp only [and_assoc]

@[simp] theorem checkedRangeEnd_ok {offset len rangeEnd : UInt64} {err : String} :
    checkedRangeEnd offset len err = .ok rangeEnd ↔
      rangeEnd.toNat = offset.toNat + len.toNat := by
  rw [checkedRangeEnd, okOr_ok, checkedAdd_eq_some]

/-- The sum of two words, as a word. -/
theorem exists_toNat_eq {n : ℕ} (h : n < 2 ^ 64) : ∃ v : UInt64, v.toNat = n :=
  ⟨UInt64.ofNat n, by rw [UInt64.toNat_ofNat', Nat.mod_eq_of_lt h]⟩

/-- A column range check. -/
theorem ensureRangeInsideRowGroup_ok {rowGroup : RowGroupIndexEntry} {offset len rangeEnd : UInt64}
    {err : String} (hrange : rowGroup.rowGroupOffset.toNat + rowGroup.rowGroupLen.toNat < 2 ^ 64)
    (hend : rangeEnd.toNat = offset.toNat + len.toNat) :
    ensureRangeInsideRowGroup offset rangeEnd rowGroup err = .ok () ↔
      rowGroup.Covers offset len := by
  obtain ⟨groupEnd, hgroup⟩ := exists_toNat_eq hrange
  simp only [ensureRangeInsideRowGroup, bind_ok, checkedRangeEnd_ok, failIf_ok, not_or,
    UInt64.not_lt, UInt64.le_iff_toNat_le]
  constructor
  · intro h
    obtain ⟨groupEnd', hgroup', hstart, hle⟩ := h
    exact ⟨hstart, by omega⟩
  · intro h
    exact ⟨groupEnd, hgroup, h.start_le, by have := h.end_le; omega⟩

theorem validateColumnsFrom_ok {rowGroup : RowGroupIndexEntry} {names : List String}
    {columns : List ColumnIndexEntry}
    (hrange : rowGroup.rowGroupOffset.toNat + rowGroup.rowGroupLen.toNat < 2 ^ 64) :
    validateColumnsFrom rowGroup names columns = .ok () ↔
      (∀ column ∈ columns, column.Valid rowGroup) ∧ (columns.map (·.name)).Nodup ∧
        ∀ column ∈ columns, column.name ∉ names := by
  induction columns generalizing names with
  | nil => simp [validateColumnsFrom]
  | cons column columns ih =>
      simp only [validateColumnsFrom, validateColumnIndex, bind_ok, failIf_ok, checkedRangeEnd_ok,
        ih, exists_const, List.mem_cons, forall_eq_or_imp, List.map_cons, List.nodup_cons,
        List.mem_map, not_or, UInt64.not_lt]
      constructor
      · intro h
        obtain ⟨⟨hname, hnull⟩, hnew, metadataEnd, hmeta, payloadEnd, hpay, _, hm, _, hp, hvalid,
          hnodup, hnames⟩ := h
        rw [ensureRangeInsideRowGroup_ok hrange hmeta] at hm
        rw [ensureRangeInsideRowGroup_ok hrange hpay] at hp
        refine ⟨⟨⟨hname, hnull, hm, hp⟩, hvalid⟩, ⟨?_, hnodup⟩, hnew, fun c hc => (hnames c hc).2⟩
        intro hex
        obtain ⟨c, hc, heq⟩ := hex
        exact (hnames c hc).1 heq
      · intro h
        obtain ⟨⟨hcol, hvalid⟩, ⟨hnot, hnodup⟩, hnew, hnames⟩ := h
        obtain ⟨metadataEnd, hmeta⟩ := exists_toNat_eq (lt_of_le_of_lt hcol.metadata.end_le hrange)
        obtain ⟨payloadEnd, hpay⟩ := exists_toNat_eq (lt_of_le_of_lt hcol.payload.end_le hrange)
        refine ⟨⟨hcol.name_ne, hcol.null_le⟩, hnew, metadataEnd, hmeta, payloadEnd, hpay,
          (), (ensureRangeInsideRowGroup_ok hrange hmeta).2 hcol.metadata,
          (), (ensureRangeInsideRowGroup_ok hrange hpay).2 hcol.payload, hvalid, hnodup, ?_⟩
        intro c hc
        exact ⟨fun heq => hnot ⟨c, hc, heq⟩, hnames c hc⟩

/-- What the loop over the row groups establishes. -/
theorem validateRowGroupsFrom_ok {footerOffset : Option UInt64} {position : ℕ}
    {expectedFirstRow last : UInt64} {rowGroups : List RowGroupIndexEntry} :
    validateRowGroupsFrom footerOffset position expectedFirstRow rowGroups = .ok last ↔
      Sequential position expectedFirstRow.toNat rowGroups ∧
        (∀ rowGroup ∈ rowGroups, rowGroup.Valid ∧ ∀ offset, footerOffset = some offset →
          rowGroup.rowGroupOffset.toNat + rowGroup.rowGroupLen.toNat ≤ offset.toNat) ∧
        last.toNat = expectedFirstRow.toNat + rowSum rowGroups := by
  induction rowGroups generalizing position expectedFirstRow with
  | nil =>
      simp only [validateRowGroupsFrom, Except.ok.injEq, Sequential, List.not_mem_nil,
        false_implies, implies_true, true_and, rowSum_nil, Nat.add_zero, UInt64.toNat_inj]
      exact eq_comm
  | cons rg rgs ih =>
      simp only [validateRowGroupsFrom, ensureBeforeFooter, bind_ok, failIf_ok, not_not, okOr_ok,
        checkedAdd_eq_some, checkedRangeEnd_ok, exists_const, ih, Sequential, rowSum_cons,
        List.forall_mem_cons]
      constructor
      · intro h
        obtain ⟨hindex, hrows, rfl, next, hnext, groupEnd, hend, hbefore, _, hcols, hseq,
          hall, hlast⟩ := h
        have hrange : rg.rowGroupOffset.toNat + rg.rowGroupLen.toNat < 2 ^ 64 := by
          rw [← hend]
          exact groupEnd.toNat_lt
        obtain ⟨hvalid, hnodup, -⟩ := (validateColumnsFrom_ok hrange).1 hcols
        rw [hnext] at hseq hlast
        refine ⟨⟨hindex, hrows, rfl, hseq⟩, ⟨⟨⟨hrange, hvalid, hnodup⟩, ?_⟩, hall⟩, by omega⟩
        intro offset hoffset
        subst hoffset
        rw [Option.any_some, decide_eq_true_eq, UInt64.not_lt, UInt64.le_iff_toNat_le] at hbefore
        omega
      · intro h
        obtain ⟨⟨hindex, hrows, hfirst, hseq⟩, ⟨⟨hvalid, hbefore⟩, hall⟩, hlast⟩ := h
        have hlt := last.toNat_lt
        obtain ⟨next, hnext⟩ : ∃ v : UInt64,
            v.toNat = expectedFirstRow.toNat + rg.rowCount.toNat :=
          exists_toNat_eq (by omega)
        obtain ⟨groupEnd, hend⟩ := exists_toNat_eq hvalid.range
        refine ⟨hindex, hrows, UInt64.toNat_inj.1 hfirst, next, hnext, groupEnd, hend, ?_,
          (), (validateColumnsFrom_ok hvalid.range).2 ⟨hvalid.columns, hvalid.nodup, by simp⟩,
          by rwa [hnext], hall, by omega⟩
        cases footerOffset with
        | none => simp
        | some offset =>
            have hle := hbefore offset rfl
            rw [Option.any_some, decide_eq_true_eq, UInt64.not_lt, UInt64.le_iff_toNat_le]
            omega

/-- **What the index check establishes**: the row groups are numbered and their rows are counted
without gaps, every row group is valid, and all of them end before the footer. -/
theorem validateFooterIndex_ok {index : FooterIndex} {footerOffset : Option UInt64} {u : Unit} :
    validateFooterIndex index footerOffset = .ok u ↔
      Sequential 0 0 index.rowGroups ∧
        (∀ rowGroup ∈ index.rowGroups, rowGroup.Valid ∧ ∀ offset, footerOffset = some offset →
          rowGroup.rowGroupOffset.toNat + rowGroup.rowGroupLen.toNat ≤ offset.toNat) ∧
        index.totalRowCount.toNat = rowSum index.rowGroups := by
  simp only [validateFooterIndex, bind_ok, failIf_ok, not_not, validateRowGroupsFrom_ok]
  constructor
  · intro h
    obtain ⟨last, ⟨hseq, hall, hlast⟩, rfl⟩ := h
    exact ⟨hseq, hall, by rw [hlast]; exact Nat.zero_add _⟩
  · intro h
    obtain ⟨hseq, hall, hlast⟩ := h
    exact ⟨index.totalRowCount, ⟨hseq, hall, by rw [hlast]; exact (Nat.zero_add _).symm⟩, rfl⟩

/-! ### Reading is exact -/

theorem length_encodeTrailer (trailer : FooterTrailer) :
    (encodeTrailer trailer).length = footerTrailerLen := by
  simp [encodeTrailer, footerMagic, footerTrailerLen]

theorem readTrailer_ok {data : List UInt8} {c c' : ℕ} {trailer : FooterTrailer}
    (hfit : Fits data) : readTrailer data c = .ok (trailer, c') ↔
      At data c (encodeTrailer trailer) ∧ c' = c + footerTrailerLen := by
  simp only [readTrailer, readBytes, Reader.bind_ok, readUInt64_ok hfit, readUInt32_ok hfit,
    readExact_ok hfit, Reader.lift_ok, failIf_ok, not_not, Reader.pure_ok, encodeTrailer,
    at_append, length_le64, length_le32, footerTrailerLen, and_assoc, exists_and_left,
    exists_eq_left, exists_eq_left', exists_const]
  constructor
  · intro h
    obtain ⟨offset, h₁, len, h₂, sum, h₃, magic, h₄, -, rfl, rfl, rfl⟩ := h
    exact ⟨h₁, h₂, h₃, h₄, rfl⟩
  · intro h
    obtain ⟨h₁, h₂, h₃, h₄, rfl⟩ := h
    exact ⟨_, h₁, _, h₂, _, h₃, _, h₄, rfl, rfl, rfl, rfl⟩

/-- A trailer is read from the files that end in it. -/
theorem decodeFooterTrailer_ok {file : List UInt8} {trailer : FooterTrailer} (hfit : Fits file) :
    decodeFooterTrailer file = .ok trailer ↔ ∃ body, file = body ++ encodeTrailer trailer := by
  simp only [decodeFooterTrailer, bind_ok, failIf_ok, not_lt, Prod.exists, readTrailer_ok hfit,
    pure_ok, exists_const]
  constructor
  · intro h
    obtain ⟨hle, _, _, ⟨hat, -⟩, rfl⟩ := h
    obtain ⟨pre, post, rfl, hpre⟩ := at_iff_exists.1 hat
    have hlen := length_encodeTrailer ‹_›
    simp only [List.length_append, hlen] at hle hpre
    obtain rfl : post = [] := List.eq_nil_of_length_eq_zero (by omega)
    exact ⟨pre, by rw [List.append_nil]⟩
  · intro h
    obtain ⟨body, rfl⟩ := h
    have hlen := length_encodeTrailer trailer
    refine ⟨by rw [List.length_append]; omega, trailer, _, ⟨?_, rfl⟩, rfl⟩
    rw [List.length_append, hlen, Nat.add_sub_cancel]
    have := at_mid body (encodeTrailer trailer) []
    rwa [List.append_nil] at this

/-- Parsing a column entry is exact. -/
theorem readColumnEntry_ok {data : List UInt8} {c c' : ℕ} {column : ColumnIndexEntry}
    (hfit : Fits data) : readColumnEntry data c = .ok (column, c') ↔
      ∃ bytes, encodeColumnEntry column = .ok bytes ∧ At data c bytes ∧ c' = c + bytes.length := by
  simp only [readColumnEntry, readBytes, Reader.bind_ok, readUInt16_ok hfit, readUInt32_ok hfit,
    readUInt64_ok hfit, readExact_ok hfit, Reader.lift_ok, okOr_ok, fromUtf8_eq_some,
    Reader.pure_ok, encodeColumnEntry, bind_ok, tryU16_ok, tryU32_ok, pure_ok, and_assoc,
    exists_and_left, exists_eq_left, exists_eq_left']
  constructor
  · intro h
    obtain ⟨nameLen, h₁, _, h₂, hlen₂, name, rfl, metadataOffset, h₃, metadataLen, h₄,
      payloadOffset, h₅, payloadLen, h₆, valueCount, h₇, nullCount, h₈, statsLen, h₉, stats, h₁₀,
      hlen₁₀, rfl, rfl⟩ := h
    refine ⟨_, ⟨nameLen, hlen₂.symm, statsLen, hlen₁₀.symm, rfl⟩, ?_, ?_⟩
    · simp only [at_append, length_le16, length_le32, length_le64, hlen₂]
      exact ⟨h₁, h₂, h₃, h₄, h₅, h₆, h₇, h₈, h₉, h₁₀⟩
    · simp only [List.length_append, length_le16, length_le32, length_le64, hlen₂, hlen₁₀]
      omega
  · intro h
    obtain ⟨_, ⟨nameLen, hlen₂, statsLen, hlen₁₀, rfl⟩, hat, rfl⟩ := h
    obtain ⟨name, metadataOffset, metadataLen, payloadOffset, payloadLen, valueCount, nullCount,
      stats⟩ := column
    simp only at hlen₂ hlen₁₀ hat
    simp only [at_append, length_le16, length_le32, length_le64, ← hlen₂] at hat
    obtain ⟨h₁, h₂, h₃, h₄, h₅, h₆, h₇, h₈, h₉, h₁₀⟩ := hat
    refine ⟨nameLen, h₁, _, h₂, hlen₂.symm, name, rfl, _, h₃, _, h₄, _, h₅, _, h₆, _, h₇, _, h₈,
      statsLen, h₉, stats, h₁₀, hlen₁₀.symm, rfl, ?_⟩
    simp only [List.length_append, length_le16, length_le32, length_le64, ← hlen₂, ← hlen₁₀]
    omega

theorem minColumnEntryLen_le {column : ColumnIndexEntry} {bytes : List UInt8}
    (h : encodeColumnEntry column = .ok bytes) (hname : column.name ≠ "") :
    minColumnEntryLen ≤ bytes.length := by
  simp only [encodeColumnEntry, bind_ok, pure_ok] at h
  obtain ⟨nameLen, -, statsLen, -, rfl⟩ := h
  have hpos : 0 < (asBytes column.name).length :=
    List.length_pos_of_ne_nil (mt asBytes_eq_nil.1 hname)
  simp only [List.length_append, length_le16, length_le32, length_le64, minColumnEntryLen]
  omega

/-- What is read for a row group is its entry. -/
theorem readRowGroupEntry_sound {data : List UInt8} {c c' : ℕ} {rowGroup : RowGroupIndexEntry}
    (hfit : Fits data) (h : readRowGroupEntry data c = .ok (rowGroup, c')) :
    ∃ bytes, (rowGroup.columns.length ≤ maxCollectionEntries ∧
      encodeRowGroupEntry rowGroup = .ok bytes) ∧ At data c bytes ∧ c' = c + bytes.length := by
  simp only [readRowGroupEntry, readBytes, Reader.bind_ok, readUInt32_ok hfit, readUInt64_ok hfit,
    Reader.lift_ok, Reader.remaining_ok, failIf_ok, not_or, not_lt, Reader.pure_ok, and_assoc,
    exists_and_left, exists_eq_left, exists_eq_left', exists_const] at h
  obtain ⟨rowGroupIndex, h₁, firstRowIndex, h₂, rowCount, h₃, rowGroupOffset, h₄, rowGroupLen, h₅,
    columnCount, h₆, hmax, -, columns, c₇, h₇, rfl, rfl⟩ := h
  obtain ⟨hcount, parts, hparts, hat, rfl⟩ := Reader.repeatRead_sound
    (E := fun column bs => encodeColumnEntry column = .ok bs)
    (fun _ _ _ hcol => (readColumnEntry_ok hfit).1 hcol) (by have := h₆.le; simp at this; omega) h₇
  simp only [encodeRowGroupEntry, bind_ok, tryU32_ok, mapM_ok, pure_ok]
  refine ⟨_, ⟨by rw [hcount]; exact hmax, columnCount, hcount.symm, parts, hparts, rfl⟩, ?_, ?_⟩
  · simp only [at_append, length_le64, length_le32]
    exact ⟨h₁, h₂, h₃, h₄, h₅, h₆, hat⟩
  · simp only [List.length_append, length_le64, length_le32]
    omega

/-- Every row group entry with valid column names is read back. -/
theorem readRowGroupEntry_complete {data : List UInt8} {c : ℕ} {rowGroup : RowGroupIndexEntry}
    {bytes : List UInt8} (hfit : Fits data) (henc : encodeRowGroupEntry rowGroup = .ok bytes)
    (hmax : rowGroup.columns.length ≤ maxCollectionEntries)
    (hnames : ∀ column ∈ rowGroup.columns, column.name ≠ "") (hat : At data c bytes) :
    readRowGroupEntry data c = .ok (rowGroup, c + bytes.length) := by
  simp only [encodeRowGroupEntry, bind_ok, tryU32_ok, mapM_ok, pure_ok] at henc
  obtain ⟨columnCount, hcount, parts, hparts, rfl⟩ := henc
  simp only [at_append, length_le64, length_le32] at hat
  obtain ⟨h₁, h₂, h₃, h₄, h₅, h₆, h₇⟩ := hat
  have hmin := mul_length_le_flatten hparts (k := minColumnEntryLen) fun column hc bs hbs =>
    minColumnEntryLen_le hbs (hnames column hc)
  have hread := Reader.repeatRead_complete (p := readColumnEntry) hparts
    (fun column _ bs c hbs hat => (readColumnEntry_ok hfit).2 ⟨bs, hbs, hat, rfl⟩) h₇
  have hle := h₇.le
  simp only [readRowGroupEntry, readBytes, Reader.bind_ok, readUInt32_ok hfit, readUInt64_ok hfit,
    Reader.lift_ok, Reader.remaining_ok, failIf_ok, not_or, not_lt, Reader.pure_ok, and_assoc,
    exists_and_left, exists_eq_left, exists_eq_left', exists_const]
  refine ⟨_, h₁, _, h₂, _, h₃, _, h₄, _, h₅, columnCount, h₆, by omega, ?_, rowGroup.columns, _,
    by rw [hcount]; exact hread, rfl, ?_⟩
  · rw [hcount, Nat.le_div_iff_mul_le (by decide)]
    omega
  · simp only [List.length_append, length_le64, length_le32]
    omega

theorem minRowGroupEntryLen_le {rowGroup : RowGroupIndexEntry} {bytes : List UInt8}
    (h : encodeRowGroupEntry rowGroup = .ok bytes) : minRowGroupEntryLen ≤ bytes.length := by
  simp only [encodeRowGroupEntry, bind_ok, pure_ok] at h
  obtain ⟨columnCount, -, parts, -, rfl⟩ := h
  simp only [List.length_append, length_le64, length_le32, minRowGroupEntryLen]
  omega

/-- An index within the limits of the decoder. -/
structure FooterIndex.WithinLimits (index : FooterIndex) : Prop where
  rowGroups : index.rowGroups.length ≤ maxCollectionEntries
  columns : ∀ rowGroup ∈ index.rowGroups, rowGroup.columns.length ≤ maxCollectionEntries

/-- The body of a footer. -/
def encodeIndex (index : FooterIndex) : Result (List UInt8) := do
  let rowGroupCount ← tryU64 index.rowGroups.length "cmp4 row group count is too large"
  let rowGroups ← index.rowGroups.mapM encodeRowGroupEntry
  return le64 index.totalRowCount ++ (le64 rowGroupCount ++ rowGroups.flatten)

theorem encodeFooter_ok {index : FooterIndex} {footer : List UInt8} :
    encodeFooter index = .ok footer ↔
      validateFooterIndex index none = .ok () ∧ encodeIndex index = .ok footer := by
  simp only [encodeFooter, encodeIndex, bind_ok]
  constructor
  · rintro ⟨_, h⟩
    exact h
  · intro h
    exact ⟨(), h⟩

/-- An index of a short footer is within the limits of the decoder. -/
theorem withinLimits_of_length {index : FooterIndex} {footer : List UInt8}
    (h : encodeIndex index = .ok footer) (hlen : footer.length ≤ maxCollectionEntries) :
    index.WithinLimits := by
  simp only [encodeIndex, bind_ok, mapM_ok, pure_ok] at h
  obtain ⟨count, -, parts, hparts, rfl⟩ := h
  simp only [List.length_append, length_le64] at hlen
  constructor
  · have hmin := mul_length_le_flatten hparts (k := 1) fun _ _ _ hbs =>
      (show 1 ≤ minRowGroupEntryLen by decide).trans (minRowGroupEntryLen_le hbs)
    omega
  · intro rowGroup hgroup
    obtain ⟨part, hpart, hentry⟩ := exists_of_forall₂_mem_left hparts hgroup
    have hle := (List.sublist_flatten_of_mem hpart).length_le
    simp only [encodeRowGroupEntry, bind_ok, mapM_ok, pure_ok] at hentry
    obtain ⟨_, -, columns, hcolumns, rfl⟩ := hentry
    have hmin := mul_length_le_flatten hcolumns (k := 1) fun column _ bs hbs => by
      simp only [encodeColumnEntry, bind_ok, pure_ok] at hbs
      obtain ⟨_, -, _, -, rfl⟩ := hbs
      rw [List.length_append, length_le16]
      omega
    simp only [List.length_append, length_le64, length_le32] at hle
    omega

/-- **Parsing an index is exact.** -/
theorem readFooterIndex_ok {data : List UInt8} {index : FooterIndex} (hfit : Fits data)
    (hnames : ∀ rowGroup ∈ index.rowGroups, ∀ column ∈ rowGroup.columns, column.name ≠ "") :
    readFooterIndex data 0 = .ok (index, data.length) ↔
      encodeIndex index = .ok data ∧ index.WithinLimits := by
  simp only [readFooterIndex, readBytes, Reader.bind_ok, readUInt64_ok hfit, Reader.lift_ok,
    tryUsize_eq, Except.ok.injEq, Reader.remaining_ok, failIf_ok, not_or, not_lt, Reader.pure_ok,
    encodeIndex, bind_ok, tryU64_ok, mapM_ok, pure_ok, and_assoc, exists_and_left, exists_eq_left,
    exists_eq_left', exists_const]
  constructor
  · intro h
    obtain ⟨total, h₁, count, h₂, hmax, -, rowGroups, c₃, h₃, rfl, rfl⟩ := h
    obtain ⟨hcount, parts, hparts, hat, hend⟩ := Reader.repeatRead_sound
      (E := fun rowGroup bs => rowGroup.columns.length ≤ maxCollectionEntries ∧
        encodeRowGroupEntry rowGroup = .ok bs)
      (fun _ _ _ hgroup => readRowGroupEntry_sound hfit hgroup)
      (by have := h₂.le; simp at this; omega) h₃
    obtain ⟨hlimit, hparts⟩ := (List.forall₂_and_left _ _).1 hparts
    have hall : At data 0 (le64 total ++ (le64 count ++ parts.flatten)) := by
      simp only [at_append, length_le64]
      exact ⟨h₁, h₂, hat⟩
    refine ⟨⟨count, hcount.symm, parts, hparts, (hall.eq_self ?_).symm⟩,
      by rw [← hcount] at hmax; exact hmax, hlimit⟩
    simp only [List.length_append, length_le64]
    omega
  · intro h
    obtain ⟨⟨count, hcount, parts, hparts, rfl⟩, hlimit⟩ := h
    have hat := at_self (le64 index.totalRowCount ++ (le64 count ++ parts.flatten))
    simp only [at_append, length_le64] at hat
    obtain ⟨h₁, h₂, h₃⟩ := hat
    have hmin := mul_length_le_flatten hparts fun _ _ _ hbs => minRowGroupEntryLen_le hbs
    have hread := Reader.repeatRead_complete (p := readRowGroupEntry)
      ((List.forall₂_and_left _ _).2 ⟨fun rowGroup h => h, hparts⟩)
      (fun rowGroup hgroup bs c hbs hat => readRowGroupEntry_complete hfit hbs.2
        (hlimit.columns rowGroup hgroup) (hnames rowGroup hgroup) hat) h₃
    have hmax := hlimit.rowGroups
    refine ⟨_, h₁, count, h₂, by omega, ?_, index.rowGroups, _, by rw [hcount]; exact hread,
      rfl, ?_⟩
    · rw [hcount, Nat.le_div_iff_mul_le (by decide)]
      simp only [List.length_append, length_le64]
      omega
    · simp only [List.length_append, length_le64]
      omega

/-- An index that passes the check against an offset passes the check without one. -/
theorem validateFooterIndex_none {index : FooterIndex} {footerOffset : Option UInt64}
    (h : validateFooterIndex index footerOffset = .ok ()) :
    validateFooterIndex index none = .ok () := by
  rw [validateFooterIndex_ok] at h ⊢
  exact ⟨h.1, fun rowGroup hgroup => ⟨(h.2.1 rowGroup hgroup).1, by simp⟩, h.2.2⟩

theorem validateFooterIndex_names {index : FooterIndex} {footerOffset : Option UInt64}
    (h : validateFooterIndex index footerOffset = .ok ()) :
    ∀ rowGroup ∈ index.rowGroups, ∀ column ∈ rowGroup.columns, column.name ≠ "" :=
  fun rowGroup hgroup column hcol =>
    (((validateFooterIndex_ok.1 h).2.1 rowGroup hgroup).1.columns column hcol).name_ne

/-- What a file with an appended footer looks like. -/
theorem appendFooter_ok [Crc32Fast] {body file : List UInt8} {index : FooterIndex}
    {trailer : FooterTrailer} : appendFooter body index = .ok (file, trailer) ↔
      trailer.footerOffset.toNat = body.length ∧
        validateFooterIndex index (some trailer.footerOffset) = .ok () ∧
        ∃ footer, encodeIndex index = .ok footer ∧ trailer.footerLen.toNat = footer.length ∧
          trailer.footerChecksum = checksum32 footer ∧
          file = body ++ (footer ++ encodeTrailer trailer) := by
  simp only [appendFooter, bind_ok, tryU64_ok, encodeFooter_ok, pure_ok, Prod.mk.injEq]
  constructor
  · intro h
    obtain ⟨offset, hoffset, _, hvalid, footer, ⟨-, henc⟩, len, hlen, rfl, rfl⟩ := h
    exact ⟨hoffset, hvalid, footer, henc, hlen, rfl, rfl⟩
  · intro h
    obtain ⟨hoffset, hvalid, footer, henc, hlen, hsum, rfl⟩ := h
    obtain ⟨offset, len, sum⟩ := trailer
    cases hsum
    exact ⟨offset, hoffset, (), hvalid, footer, ⟨validateFooterIndex_none hvalid, henc⟩, len, hlen,
      rfl, rfl⟩

/-- **Reading a footer is exact**: an index is read from the files that it was appended to, and from
no others. -/
theorem decodeFooter_ok [Crc32Fast] {file : List UInt8} {index : FooterIndex} (hfit : Fits file) :
    decodeFooter file = .ok index ↔
      index.WithinLimits ∧ ∃ body trailer, appendFooter body index = .ok (file, trailer) := by
  simp only [decodeFooter, bind_ok, decodeFooterTrailer_ok hfit, tryUsize_eq, Except.ok.injEq,
    okOr_ok, usizeAdd_eq_some, failIf_ok, not_not, Prod.exists, pure_ok, exists_const,
    exists_eq_left', and_assoc, exists_and_left, not_lt, appendFooter_ok]
  constructor
  · intro h
    obtain ⟨trailer, ⟨body, rfl⟩, -, -, hend, hsum, index', _, hread, rfl, _, hvalid, rfl⟩ := h
    rw [List.length_append, length_encodeTrailer, Nat.add_sub_cancel] at hend
    have hfooter : ((body ++ encodeTrailer trailer).drop trailer.footerOffset.toNat).take
        trailer.footerLen.toNat = body.drop trailer.footerOffset.toNat := by
      rw [List.drop_append_of_le_length (by omega)]
      exact List.take_left' (by rw [List.length_drop]; omega)
    rw [hfooter] at hread hsum
    have hfit' : Fits (body.drop trailer.footerOffset.toNat) :=
      lt_of_le_of_lt (by simp) (hfit.of_append)
    obtain ⟨henc, hlimit⟩ := (readFooterIndex_ok hfit' (validateFooterIndex_names hvalid)).1 hread
    refine ⟨hlimit, body.take trailer.footerOffset.toNat, trailer, ?_, hvalid,
      body.drop trailer.footerOffset.toNat, henc, ?_, hsum.symm, ?_⟩
    · rw [List.length_take]
      omega
    · rw [List.length_drop]
      omega
    · rw [← List.append_assoc, List.take_append_drop]
  · intro h
    obtain ⟨hlimit, body, trailer, hoffset, hvalid, footer, henc, hlen, hsum, rfl⟩ := h
    have htrailer := length_encodeTrailer trailer
    have hfooter : ((body ++ (footer ++ encodeTrailer trailer)).drop
        trailer.footerOffset.toNat).take trailer.footerLen.toNat = footer := by
      rw [List.drop_left' hoffset.symm, List.take_left' hlen.symm]
    have hword := hfit
    rw [Fits, List.length_append, List.length_append, htrailer] at hword
    have hfit' : Fits footer := by
      rw [Fits]
      omega
    refine ⟨trailer, ⟨body ++ footer, by rw [List.append_assoc]⟩, by omega, ?_, ?_, ?_, ?_⟩
    · rw [List.length_append, List.length_append, htrailer]
      omega
    · rw [List.length_append, List.length_append, htrailer]
      omega
    · rw [hfooter]
      exact hsum.symm
    · rw [hfooter]
      exact ⟨index, footer.length,
        (readFooterIndex_ok hfit' (validateFooterIndex_names hvalid)).2 ⟨henc, hlimit⟩, rfl, (),
        hvalid, rfl⟩

end CompactCore.Format.V4
