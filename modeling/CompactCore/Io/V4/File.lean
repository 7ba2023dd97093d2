/-
**`CMP4` files.**

A file is a header, row groups one behind the other, and a footer.  The writer cuts the rows into
chunks and writes a row group for each.  Validation compares the footer with the row groups.
Recovery does without the footer: it scans row groups from the header on, and rebuilds their index.

Main definitions:

* `CompactCore.Io.V4.encodeJsonl`, `CompactCore.Io.V4.inspectFooter`,
  `CompactCore.Io.V4.validateFile`, `CompactCore.Io.V4.recoverFilePrefix` — the operations;
* `CompactCore.Io.V4.rowGroupLog` — row groups as a log;
* `CompactCore.Io.V4.indexEntries` — the index of the row groups of a log.

Main results:

* `CompactCore.Io.V4.recoverFilePrefix_ok` — **recovery finds the complete log behind the header**,
  unless its row count overflows;
* `CompactCore.Io.V4.validateFile_log` — a log with its footer behind it is a valid file;
* `CompactCore.Io.V4.encodeJsonl_ok` — the writer writes a log of the chunks, with its footer.
-/

import CompactCore.Io.V4.RowGroup
import CompactCore.Wire.Scan

set_option relaxedAutoImplicit false
set_option autoImplicit false

namespace CompactCore.Io.V4

open Wire CompactError Format Format.V4 Io.V3

variable [Crc32Fast]

/-! ### Writing -/

structure EncodeOptions where
  rowGroupRows : ℕ
  deriving DecidableEq, Repr

instance : Inhabited EncodeOptions := ⟨⟨1024⟩⟩

/-- `slice::chunks`. -/
def chunks {α : Type} (size : ℕ) (rows : List α) : List (List α) :=
  if _h : rows = [] ∨ size = 0 then [] else rows.take size :: chunks size (rows.drop size)
termination_by rows.length
decreasing_by
  have hlen := List.length_pos_of_ne_nil (not_or.1 _h).1
  rw [List.length_drop]
  omega

/-- The file written so far, and the entries of its row groups. -/
structure FileWriter where
  file : List UInt8
  rowGroups : List RowGroupIndexEntry

/-- Write the row group of one chunk of rows. -/
def encodeChunk (columns : List ColumnSchema) (rowGroupRows : ℕ) (s : FileWriter)
    (chunk : List Map × ℕ) : Result FileWriter := do
  let firstRowIndex ← okOr (invalidInput "cmp4 first row index overflow")
    (usizeMul chunk.2 rowGroupRows)
  let fileLen ← tryU64 s.file.length "cmp4 file length is too large"
  let (rowGroup, entry) ← encodeRowGroup chunk.2 firstRowIndex chunk.1 columns fileLen
  return ⟨s.file ++ rowGroup, s.rowGroups ++ [entry]⟩

/-- Encode JSONL into a multi-row-group file. -/
def encodeJsonl [SerdeJson] (input : String) (schema : Schema) (options : EncodeOptions) :
    Result (List UInt8) := do
  failIf (options.rowGroupRows = 0) (invalidInput "cmp4 row group row limit must be positive")
  let columns ← validateImplementedSchema schema
  let rows ← parseRows input
  let s ← (chunks options.rowGroupRows rows).zipIdx.foldlM
    (encodeChunk columns options.rowGroupRows) ⟨encodeEmptyHeader, []⟩
  let totalRowCount ← tryU64 rows.length "cmp4 row count is too large"
  let (file, _) ← appendFooter s.file ⟨totalRowCount, s.rowGroups⟩
  return file

/-! ### Validating -/

/-- Read only footer metadata. -/
def inspectFooter (data : List UInt8) : Result FooterIndex := do
  let _ ← decodeHeader data
  decodeFooter data

/-- The loop over the row groups, which must cover the body without gaps. -/
def validateRowGroups (data : List UInt8) : UInt64 → List RowGroupIndexEntry → Result UInt64
  | expectedOffset, [] => .ok expectedOffset
  | expectedOffset, rowGroup :: rowGroups => do
      failIf (rowGroup.rowGroupOffset ≠ expectedOffset)
        (invalidInput "cmp4 row groups must be physically contiguous")
      verifyRowGroup data rowGroup true
      let expectedOffset ← okOr (invalidInput "cmp4 row group range overflow")
        (checkedAdd expectedOffset rowGroup.rowGroupLen)
      validateRowGroups data expectedOffset rowGroups

/-- Validate the complete schema-independent storage envelope. -/
def validateFile (data : List UInt8) : Result FooterIndex := do
  let header ← decodeHeader data
  failIf (header.payload ≠ []) (unsupported "cmp4 header payload")
  let trailer ← decodeFooterTrailer data
  let footer ← decodeFooter data
  let expectedOffset ← tryU64 header.bodyOffset "cmp4 header offset is too large"
  let expectedOffset ← validateRowGroups data expectedOffset footer.rowGroups
  failIf (expectedOffset ≠ trailer.footerOffset) (invalidInput "cmp4 body does not end at footer")
  return footer

/-! ### Recovering -/

/-- Schema-independent prefix recovered from contiguous valid row groups. -/
structure FileRecovery where
  validBodyLen : UInt64
  footer : FooterIndex
  discardedTail : Bool
  deriving DecidableEq, Repr

structure RecoveryState where
  cursor : ℕ
  rowGroups : List RowGroupIndexEntry
  expectedFirstRow : UInt64

/-- One round of the recovery loop.  A row group that cannot be recovered ends the loop; an
overflowing row count fails. -/
def recoverStep (data : List UInt8) (s : RecoveryState) : Result (Option RecoveryState) :=
  if (data.drop s.cursor).take rowGroupMagic.length = rowGroupMagic then do
    let rowGroupIndex ← tryU64 s.rowGroups.length "cmp4 row group count is too large"
    match recoverRowGroup data s.cursor rowGroupIndex s.expectedFirstRow with
    | .error _ => return none
    | .ok (rowGroup, nextCursor) =>
        let expectedFirstRow ← okOr (invalidInput "cmp4 total row count overflow")
          (checkedAdd s.expectedFirstRow rowGroup.rowCount)
        return some ⟨nextCursor, s.rowGroups ++ [rowGroup], expectedFirstRow⟩
  else .ok none

theorem recoverStep_cursor_lt {data : List UInt8} {s s' : RecoveryState}
    (h : recoverStep data s = .ok (some s')) :
    s.cursor < data.length ∧ s.cursor < s'.cursor := by
  unfold recoverStep at h
  split at h
  · rename_i hmagic
    have hlt : s.cursor < data.length := by
      have hlen := congrArg List.length hmagic
      rw [List.length_take, List.length_drop, show rowGroupMagic.length = 4 from rfl] at hlen
      omega
    rw [bind_ok] at h
    obtain ⟨index, -, h⟩ := h
    split at h
    · cases h
    · rename_i entry next hrec
      simp only [bind_ok, pure_ok, Option.some.injEq] at h
      obtain ⟨first, -, rfl⟩ := h
      exact ⟨hlt, recoverRowGroup_lt hrec⟩
  · cases h

def recoverLoop (data : List UInt8) : Loop CompactError RecoveryState where
  step := recoverStep data
  measure s := data.length - s.cursor
  decreases h := by
    have := recoverStep_cursor_lt h
    omega

/-- Recover a contiguous row-group prefix without requiring a schema. -/
def recoverFilePrefix (data : List UInt8) : Result FileRecovery := do
  let header ← decodeHeader data
  failIf (header.payload ≠ []) (unsupported "cmp4 header payload")
  let s ← (recoverLoop data).run ⟨header.bodyOffset, [], 0⟩
  let validBodyLen ← tryU64 s.cursor "cmp4 recovery offset is too large"
  return {
    validBodyLen := validBodyLen
    footer := ⟨s.expectedFirstRow, s.rowGroups⟩
    discardedTail := s.cursor < data.length }

/-! ### Row groups as a log -/

/-- The number of rows of some row groups. -/
def groupRows (groups : List RowGroup) : ℕ := (groups.map fun group => group.rowCount.toNat).sum

omit [Crc32Fast] in
@[simp] theorem groupRows_append (groups groups' : List RowGroup) :
    groupRows (groups ++ groups') = groupRows groups + groupRows groups' := by
  simp [groupRows]

omit [Crc32Fast] in
@[simp] theorem groupRows_singleton (group : RowGroup) :
    groupRows [group] = group.rowCount.toNat := by
  simp [groupRows]

/-- The log of well-formed row groups that are numbered, and whose rows are counted, without
gaps. -/
def rowGroupLog : LogFormat RowGroup where
  bytes := RowGroup.bytes
  Accepts groups group := group.WellFormed ∧ group.index.toNat = groups.length ∧
    group.firstRowIndex.toNat = groupRows groups
  bytes_ne _ := RowGroup.bytes_ne _
  unique h h' hat hat' := h.1.unique h'.1 hat hat'

/-- The index of row groups that follow each other from an offset. -/
def indexEntries (offset : ℕ) : List RowGroup → List RowGroupIndexEntry
  | [] => []
  | group :: groups => group.entry offset :: indexEntries (offset + group.bytes.length) groups

theorem indexEntries_append (offset : ℕ) (groups groups' : List RowGroup) :
    indexEntries offset (groups ++ groups') = indexEntries offset groups ++
      indexEntries (offset + (rowGroupLog.flat groups).length) groups' := by
  induction groups generalizing offset with
  | nil => rfl
  | cons group groups ih =>
      rw [List.cons_append, indexEntries, indexEntries, ih, LogFormat.flat_cons,
        List.length_append, ← Nat.add_assoc, List.cons_append]
      rfl

@[simp] theorem length_indexEntries (offset : ℕ) (groups : List RowGroup) :
    (indexEntries offset groups).length = groups.length := by
  induction groups generalizing offset with
  | nil => rfl
  | cons group groups ih => rw [indexEntries, List.length_cons, List.length_cons, ih]

/-- The index of a log, as recovery and the writer build it. -/
def indexOf (groups : List RowGroup) : FooterIndex :=
  ⟨UInt64.ofNat (groupRows groups), indexEntries fileHeaderLen groups⟩

/-! ### Recovery finds the complete log -/

/-- The state of the recovery loop behind some row groups. -/
structure RecoveryState.After (s : RecoveryState) (groups : List RowGroup) : Prop where
  cursor_eq : s.cursor = fileHeaderLen + (rowGroupLog.flat groups).length
  rowGroups_eq : s.rowGroups = indexEntries fileHeaderLen groups
  firstRow_eq : s.expectedFirstRow.toNat = groupRows groups

/-- What is recovered behind the row groups of a log. -/
theorem recoverRowGroup_after {data : List UInt8} {s : RecoveryState} {groups : List RowGroup}
    {index : UInt64} (hfit : Fits data) (hs : s.After groups) (hindex : index.toNat = groups.length)
    {entry : RowGroupIndexEntry} {next : ℕ} :
    recoverRowGroup data s.cursor index s.expectedFirstRow = .ok (entry, next) ↔
      ∃ group, rowGroupLog.Accepts groups group ∧ At data s.cursor (rowGroupLog.bytes group) ∧
        entry = group.entry s.cursor ∧ next = s.cursor + group.bytes.length := by
  rw [recoverRowGroup_ok hfit]
  constructor
  · intro h
    obtain ⟨group, hwell, rfl, hfirst, hat, rfl, rfl⟩ := h
    exact ⟨group, ⟨hwell, hindex, by rw [hfirst, hs.firstRow_eq]⟩, hat, rfl, rfl⟩
  · intro h
    obtain ⟨group, ⟨hwell, hidx, hfirst⟩, hat, rfl, rfl⟩ := h
    exact ⟨group, hwell, UInt64.toNat_inj.1 (hidx.trans hindex.symm),
      UInt64.toNat_inj.1 (hfirst.trans hs.firstRow_eq.symm), hat, rfl, rfl⟩

/-- The round on a row group that is there. -/
theorem recoverStep_group {data : List UInt8} {s : RecoveryState} {groups : List RowGroup}
    {group : RowGroup} (hfit : Fits data) (hs : s.After groups)
    (hlog : rowGroupLog.Holds data fileHeaderLen (groups ++ [group])) :
    recoverStep data s =
      (okOr (invalidInput "cmp4 total row count overflow")
        (checkedAdd s.expectedFirstRow group.rowCount)).map fun expectedFirstRow =>
          some ⟨s.cursor + group.bytes.length, s.rowGroups ++ [group.entry s.cursor],
            expectedFirstRow⟩ := by
  obtain ⟨hgroups, hacc, hat⟩ := LogFormat.holds_snoc.1 hlog
  rw [← hs.cursor_eq] at hat
  have hmagic : (data.drop s.cursor).take rowGroupMagic.length = rowGroupMagic :=
    (RowGroup.at_body.1 (RowGroup.at_bytes.1 hat).1).1.slice
  have hcount : s.rowGroups.length < 2 ^ 64 := by
    have hle := LogFormat.length_le_flat hgroups.1
    have hlen := hgroups.le
    rw [hs.rowGroups_eq, length_indexEntries]
    rw [Fits, wordSize] at hfit
    omega
  have hindex : (UInt64.ofNat s.rowGroups.length).toNat = groups.length := by
    rw [toNat_ofNat hcount, hs.rowGroups_eq, length_indexEntries]
  have hrec := (recoverRowGroup_after hfit hs hindex).2 ⟨group, hacc, hat, rfl, rfl⟩
  rw [recoverStep, if_pos hmagic, tryU64, if_pos hcount]
  simp only [bind, Except.bind, hrec,
    show (group.entry s.cursor).rowCount = group.rowCount from rfl]
  cases okOr (invalidInput "cmp4 total row count overflow")
    (checkedAdd s.expectedFirstRow group.rowCount) <;> rfl

/-- The recovery loop follows the log, as long as the row count fits in a word. -/
theorem recoverLoop_follows {data : List UInt8} (hfit : Fits data) :
    Follows (recoverLoop data) rowGroupLog data fileHeaderLen RecoveryState.After
      (fun groups => groupRows groups < 2 ^ 64) where
  next := by
    intro s groups group hs hlog hgood
    have hstep := recoverStep_group hfit hs hlog
    rw [groupRows_append, groupRows_singleton, ← hs.firstRow_eq] at hgood
    rw [checkedAdd, if_pos hgood] at hstep
    refine ⟨_, hstep, ?_, ?_, ?_⟩
    · rw [LogFormat.flat_append, LogFormat.flat_singleton, List.length_append, ← Nat.add_assoc,
        ← hs.cursor_eq]
      rfl
    · rw [indexEntries_append, ← hs.cursor_eq, hs.rowGroups_eq]
      rfl
    · rw [groupRows_append, groupRows_singleton, ← hs.firstRow_eq]
      exact toNat_ofNat hgood
  fail := by
    intro s groups group hs hlog hbad
    have hstep := recoverStep_group hfit hs hlog
    rw [groupRows_append, groupRows_singleton, ← hs.firstRow_eq] at hbad
    rw [checkedAdd, if_neg hbad] at hstep
    exact ⟨_, hstep⟩
  good_of_append := by
    intro groups groups' hgood
    rw [groupRows_append] at hgood
    omega

/-- The loop stops behind a complete log. -/
theorem recoverStep_none {data : List UInt8} {s : RecoveryState} {groups : List RowGroup}
    (hfit : Fits data) (hs : s.After groups)
    (hlog : rowGroupLog.Complete data fileHeaderLen groups) : recoverStep data s = .ok none := by
  unfold recoverStep
  split
  · have hcount : s.rowGroups.length < 2 ^ 64 := by
      have hle := LogFormat.length_le_flat hlog.1.1
      have hlen := hlog.1.le
      rw [hs.rowGroups_eq, length_indexEntries]
      rw [Fits, wordSize] at hfit
      omega
    rw [tryU64, if_pos hcount]
    simp only [bind, Except.bind]
    split
    · rfl
    · rename_i entry next hrec
      obtain ⟨group, hacc, hat, -⟩ := (recoverRowGroup_after hfit hs (by
        rw [toNat_ofNat hcount, hs.rowGroups_eq, length_indexEntries])).1 hrec
      rw [hs.cursor_eq] at hat
      exact absurd hat (hlog.2 group hacc)
  · rfl

/-- What recovery reports of a complete log. -/
def recoveryOf (data : List UInt8) (groups : List RowGroup) : FileRecovery where
  validBodyLen := UInt64.ofNat (fileHeaderLen + (rowGroupLog.flat groups).length)
  footer := indexOf groups
  discardedTail := fileHeaderLen + (rowGroupLog.flat groups).length < data.length

/-- A file starts with a header that has no payload. -/
def HasHeader (data : List UInt8) : Prop := At data 0 encodeEmptyHeader

instance (data : List UInt8) : Decidable (HasHeader data) :=
  inferInstanceAs (Decidable (At data 0 encodeEmptyHeader))

omit [Crc32Fast] in
theorem decodeHeader_empty {data : List UInt8} {header : FileHeader} :
    (decodeHeader data = .ok header ∧ header.payload = []) ↔
      HasHeader data ∧ header = ⟨0, [], fileHeaderLen⟩ := readHeader_empty rfl

omit [Crc32Fast] in
theorem HasHeader.le {data : List UInt8} (h : HasHeader data) : fileHeaderLen ≤ data.length := by
  have hle := At.le h
  rwa [Nat.zero_add] at hle

/-- **Recovery finds the complete log behind the header**, unless its row count overflows. -/
theorem recoverFilePrefix_complete {data : List UInt8} {groups : List RowGroup} (hfit : Fits data)
    (hheader : HasHeader data) (hlog : rowGroupLog.Complete data fileHeaderLen groups) :
    (groupRows groups < 2 ^ 64 → recoverFilePrefix data = .ok (recoveryOf data groups)) ∧
      (¬groupRows groups < 2 ^ 64 → ∃ e, recoverFilePrefix data = .error e) := by
  obtain ⟨hdec, -⟩ := decodeHeader_empty.2 ⟨hheader, rfl⟩
  have hstart : RecoveryState.After ⟨fileHeaderLen, [], 0⟩ [] := ⟨rfl, rfl, rfl⟩
  have hlog' := hlog.1
  rw [← List.nil_append groups] at hlog'
  constructor
  · intro hgood
    obtain ⟨s, hrounds, hs⟩ :=
      (recoverLoop_follows hfit).rounds groups hstart hlog' (by simpa using hgood)
    rw [List.nil_append] at hs
    have hrun := Loop.run_ok.2 ⟨hrounds, recoverStep_none hfit hs hlog⟩
    have hcur : s.cursor < 2 ^ 64 := by
      have hle := hlog.1.le
      rw [hs.cursor_eq]
      rw [Fits, wordSize] at hfit
      omega
    simp only [recoverFilePrefix, hdec, bind_ok, Except.ok.injEq, exists_eq_left', failIf_ok,
      not_not, hrun, tryU64_ok, pure_ok, recoveryOf, indexOf]
    refine ⟨(), trivial, UInt64.ofNat s.cursor, toNat_ofNat hcur, ?_⟩
    rw [hs.cursor_eq, hs.rowGroups_eq, eq_ofNat hs.firstRow_eq]
  · intro hbad
    obtain ⟨e, he⟩ := (recoverLoop_follows hfit).run_error groups hstart (by decide) hlog'
      (by simpa using hbad)
    refine ⟨e, ?_⟩
    rw [recoverFilePrefix, hdec]
    simp [bind, Except.bind, failIf, he]

/-- **What is recovered**: the complete log behind the header. -/
theorem recoverFilePrefix_ok {data : List UInt8} {r : FileRecovery} (hfit : Fits data) :
    recoverFilePrefix data = .ok r ↔ HasHeader data ∧ ∃ groups,
      rowGroupLog.Complete data fileHeaderLen groups ∧ groupRows groups < 2 ^ 64 ∧
        r = recoveryOf data groups := by
  constructor
  · intro h
    have hheader : HasHeader data := by
      simp only [recoverFilePrefix, bind_ok, failIf_ok, not_not] at h
      obtain ⟨header, hdec, _, hnil, -⟩ := h
      exact (decodeHeader_empty.1 ⟨hdec, hnil⟩).1
    obtain ⟨groups, hlog⟩ := LogFormat.exists_complete (F := rowGroupLog) hheader.le
    obtain ⟨hok, herr⟩ := recoverFilePrefix_complete hfit hheader hlog
    by_cases hgood : groupRows groups < 2 ^ 64
    · rw [hok hgood] at h
      cases h
      exact ⟨hheader, groups, hlog, hgood, rfl⟩
    · obtain ⟨e, he⟩ := herr hgood
      rw [he] at h
      cases h
  · intro h
    obtain ⟨hheader, groups, hlog, hgood, rfl⟩ := h
    exact (recoverFilePrefix_complete hfit hheader hlog).1 hgood

/-! ### A log with its footer is a valid file -/

theorem rowSum_indexEntries (offset : ℕ) (groups : List RowGroup) :
    rowSum (indexEntries offset groups) = groupRows groups := by
  induction groups generalizing offset with
  | nil => rfl
  | cons group groups ih =>
      rw [indexEntries, rowSum_cons, ih, groupRows, groupRows, List.map_cons, List.sum_cons]
      rfl

/-- The index of a log is sequential. -/
theorem sequential_indexEntries {done groups : List RowGroup} (h : rowGroupLog.Chain done groups)
    (offset : ℕ) : Sequential done.length (groupRows done) (indexEntries offset groups) := by
  induction groups generalizing done offset with
  | nil => trivial
  | cons group groups ih =>
      obtain ⟨⟨hwell, hindex, hfirst⟩, hrest⟩ := h
      have hseq := ih hrest (offset + group.bytes.length)
      rw [List.length_append, groupRows_append, groupRows_singleton] at hseq
      exact ⟨eq_ofNat hindex, hwell.rowCount_ne, hfirst, hseq⟩

/-- The entries of a log are valid and end before the end of the log. -/
theorem indexEntries_valid {done groups : List RowGroup} {offset : ℕ}
    (h : rowGroupLog.Chain done groups)
    (hword : offset + (rowGroupLog.flat groups).length < 2 ^ 64) {entry : RowGroupIndexEntry}
    (hentry : entry ∈ indexEntries offset groups) :
    entry.Valid ∧ entry.rowGroupOffset.toNat + entry.rowGroupLen.toNat ≤
      offset + (rowGroupLog.flat groups).length := by
  induction groups generalizing done offset with
  | nil => cases hentry
  | cons group groups ih =>
      obtain ⟨⟨hwell, -⟩, hrest⟩ := h
      rw [LogFormat.flat_cons, List.length_append] at hword ⊢
      rw [show rowGroupLog.bytes group = group.bytes from rfl] at hword ⊢
      rcases List.mem_cons.1 hentry with rfl | hmem
      · refine ⟨hwell.entry_valid (by omega), ?_⟩
        rw [RowGroup.toNat_rowGroupLen (by omega), RowGroup.toNat_rowGroupOffset (by omega)]
        omega
      · obtain ⟨hvalid, hle⟩ := ih hrest (by omega) hmem
        exact ⟨hvalid, by omega⟩

/-- The index of a log passes the index check. -/
theorem validateFooterIndex_indexOf {data : List UInt8} {groups : List RowGroup} {offset : UInt64}
    (hfit : Fits data) (h : rowGroupLog.Holds data fileHeaderLen groups)
    (hrows : groupRows groups < 2 ^ 64)
    (hoffset : offset.toNat = fileHeaderLen + (rowGroupLog.flat groups).length) :
    validateFooterIndex (indexOf groups) (some offset) = .ok () := by
  have hword : fileHeaderLen + (rowGroupLog.flat groups).length < 2 ^ 64 :=
    lt_of_le_of_lt h.le hfit
  rw [validateFooterIndex_ok]
  refine ⟨sequential_indexEntries h.1 fileHeaderLen, ?_, ?_⟩
  · intro entry hentry
    obtain ⟨hvalid, hle⟩ := indexEntries_valid h.1 hword hentry
    refine ⟨hvalid, ?_⟩
    intro o ho
    cases ho
    omega
  · rw [indexOf, toNat_ofNat hrows, rowSum_indexEntries]

/-- The index of a log of not too many row groups is within the limits of the decoder. -/
theorem indexOf_withinLimits {groups : List RowGroup} (h : rowGroupLog.Chain [] groups)
    (hle : groups.length ≤ maxCollectionEntries) : (indexOf groups).WithinLimits := by
  have hcolumns : ∀ (groups done : List RowGroup) (offset : ℕ), rowGroupLog.Chain done groups →
      ∀ entry ∈ indexEntries offset groups, entry.columns.length ≤ maxCollectionEntries := by
    intro groups
    induction groups with
    | nil =>
        intro _ _ _ entry hentry
        cases hentry
    | cons group groups ih =>
        intro done offset hchain entry hentry
        obtain ⟨⟨hwell, -⟩, hrest⟩ := hchain
        rcases List.mem_cons.1 hentry with rfl | hmem
        · rw [RowGroup.entry, length_chunkEntries]
          exact hwell.length_le
        · exact ih _ _ hrest entry hmem
  refine ⟨?_, hcolumns groups [] fileHeaderLen h⟩
  rw [indexOf, length_indexEntries]
  exact hle

/-- The row groups of a log pass the check of their entries, one behind the other. -/
theorem validateRowGroups_log {data : List UInt8} {done groups : List RowGroup} {offset : ℕ}
    {expectedOffset : UInt64} (hfit : Fits data) (hchain : rowGroupLog.Chain done groups)
    (hat : At data offset (rowGroupLog.flat groups)) (hoffset : expectedOffset.toNat = offset) :
    validateRowGroups data expectedOffset (indexEntries offset groups) =
      .ok (UInt64.ofNat (offset + (rowGroupLog.flat groups).length)) := by
  induction groups generalizing done offset expectedOffset with
  | nil =>
      rw [eq_ofNat hoffset]
      rfl
  | cons group groups ih =>
      obtain ⟨⟨hwell, -⟩, hrest⟩ := hchain
      rw [LogFormat.flat_cons, at_append] at hat
      rw [show rowGroupLog.bytes group = group.bytes from rfl] at hat
      have hword : offset + group.bytes.length < 2 ^ 64 := lt_of_le_of_lt hat.1.le hfit
      have hnext : (UInt64.ofNat (offset + group.bytes.length)).toNat =
          offset + group.bytes.length := toNat_ofNat hword
      have hrec := ih hrest hat.2 hnext
      simp only [indexEntries, validateRowGroups, bind_ok, failIf_ok, not_not, okOr_ok,
        checkedAdd_eq_some, verifyRowGroup_entry hfit hwell hat.1]
      refine ⟨(), ?_, (), trivial, UInt64.ofNat (offset + group.bytes.length), ?_, ?_⟩
      · rw [← UInt64.toNat_inj, RowGroup.toNat_rowGroupOffset hword, hoffset]
      · rw [RowGroup.toNat_rowGroupLen hword, hnext, hoffset]
      · rw [hrec, LogFormat.flat_cons, List.length_append, ← Nat.add_assoc]
        rfl

/-- **A log with its footer behind it is a valid file.** -/
theorem validateFile_log {body file : List UInt8} {groups : List RowGroup} {trailer : FooterTrailer}
    (hfit : Fits file) (hheader : HasHeader body)
    (hlog : rowGroupLog.Holds body fileHeaderLen groups)
    (hend : body.length = fileHeaderLen + (rowGroupLog.flat groups).length)
    (hlimit : (indexOf groups).WithinLimits)
    (hfile : appendFooter body (indexOf groups) = .ok (file, trailer)) :
    validateFile file = .ok (indexOf groups) ∧ inspectFooter file = .ok (indexOf groups) := by
  obtain ⟨hoffset, -, footer, -, -, -, rfl⟩ := appendFooter_ok.1 hfile
  have hdec := (decodeFooter_ok hfit).2 ⟨hlimit, body, trailer, hfile⟩
  have htrailer := (decodeFooterTrailer_ok hfit).2
    ⟨body ++ footer, (List.append_assoc body footer (encodeTrailer trailer)).symm⟩
  obtain ⟨hheader', -⟩ := decodeHeader_empty.2
    ⟨show HasHeader (body ++ (footer ++ encodeTrailer trailer)) from hheader.append_right _, rfl⟩
  have hoffset' : (UInt64.ofNat fileHeaderLen).toNat = fileHeaderLen := rfl
  have hrows := validateRowGroups_log hfit hlog.1 (hlog.append_right _).2 hoffset'
  constructor
  · simp only [validateFile, bind_ok, hheader', htrailer, hdec, Except.ok.injEq, exists_eq_left',
      failIf_ok, not_not, tryU64_ok, pure_ok]
    refine ⟨(), trivial, UInt64.ofNat fileHeaderLen, rfl, _, hrows, (), ?_, trivial⟩
    rw [← hend, ← hoffset, UInt64.ofNat_toNat]
  · simp only [inspectFooter, bind_ok, hheader', Except.ok.injEq, exists_eq_left']
    exact hdec

/-! ### The writer writes a log -/

omit [Crc32Fast] in
/-- The chunks of some rows are the rows. -/
theorem flatten_chunks {α : Type} {size : ℕ} (hsize : size ≠ 0) (rows : List α) :
    (chunks size rows).flatten = rows := by
  induction rows using chunks.induct size with
  | case1 rows hnil =>
      rw [chunks, dif_pos hnil]
      exact (hnil.resolve_right hsize).symm
  | case2 rows hne ih =>
      rw [chunks, dif_neg hne, List.flatten_cons, ih, List.take_append_drop]

/-- The row group holds the columns of a chunk of rows. -/
structure RowGroup.Encodes (group : RowGroup) (columns : List ColumnSchema) (rows : List Map) :
    Prop where
  rowCount_eq : group.rowCount.toNat = rows.length
  encoded : List.Forall₂ (fun column chunk => encodeColumn column rows = .ok chunk) columns
    group.chunks

/-- What the writer has written after some row groups. -/
structure FileWriter.Wrote (s : FileWriter) (groups : List RowGroup) : Prop where
  chain : rowGroupLog.Chain [] groups
  file_eq : s.file = encodeEmptyHeader ++ rowGroupLog.flat groups
  rowGroups_eq : s.rowGroups = indexEntries fileHeaderLen groups

/-- The row group of one more chunk. -/
theorem encodeChunk_wrote {columns : List ColumnSchema} {rowGroupRows : ℕ} {s s' : FileWriter}
    {done : List RowGroup} {chunk : List Map} (hs : s.Wrote done) (hchunk : chunk ≠ [])
    (hnodup : (columns.map (·.name)).Nodup) (hmax : columns.length ≤ maxCollectionEntries)
    (hfirst : groupRows done = done.length * rowGroupRows)
    (h : encodeChunk columns rowGroupRows s (chunk, done.length) = .ok s') :
    ∃ group, s'.Wrote (done ++ [group]) ∧ group.Encodes columns chunk := by
  simp only [encodeChunk, bind_ok, okOr_ok, usizeMul_eq_some, tryU64_ok, Prod.exists, pure_ok,
    and_assoc, exists_and_left, exists_eq_left'] at h
  obtain ⟨-, fileLen, hlen, bytes, entry, hgroup, rfl⟩ := h
  obtain ⟨group, hwell, hindex, hfirstRow, hcount, hencoded, rfl, rfl⟩ :=
    encodeRowGroup_ok hchunk hnodup hmax hgroup
  refine ⟨group, ⟨?_, ?_, ?_⟩, hcount, hencoded⟩
  · exact LogFormat.chain_snoc.2 ⟨hs.chain, hwell, hindex, by rw [hfirstRow, hfirst]⟩
  · rw [hs.file_eq, LogFormat.flat_append, LogFormat.flat_singleton, List.append_assoc]
    rfl
  · rw [hs.file_eq, List.length_append] at hlen
    rw [hs.rowGroups_eq, indexEntries_append, hlen]
    rfl

/-- The row groups of all chunks. -/
theorem encodeChunks_wrote {columns : List ColumnSchema} {rowGroupRows : ℕ} {rows : List Map}
    {s s' : FileWriter} {done : List RowGroup} (hs : s.Wrote done)
    (hnodup : (columns.map (·.name)).Nodup) (hmax : columns.length ≤ maxCollectionEntries)
    (hfirst : rows ≠ [] → groupRows done = done.length * rowGroupRows)
    (h : ((chunks rowGroupRows rows).zipIdx done.length).foldlM (encodeChunk columns rowGroupRows)
      s = .ok s') :
    ∃ groups, s'.Wrote (done ++ groups) ∧
      List.Forall₂ (fun chunk group => RowGroup.Encodes group columns chunk)
        (chunks rowGroupRows rows) groups := by
  induction rows using chunks.induct rowGroupRows generalizing s done with
  | case1 rows hnil =>
      rw [chunks, dif_pos hnil] at h ⊢
      cases h
      exact ⟨[], by rwa [List.append_nil], List.Forall₂.nil⟩
  | case2 rows hne ih =>
      rw [chunks, dif_neg hne] at h ⊢
      rw [List.zipIdx_cons, List.foldlM_cons, bind_ok] at h
      obtain ⟨s₁, hstep, hrest⟩ := h
      have hrows : rows ≠ [] := (not_or.1 hne).1
      have hpos := List.length_pos_of_ne_nil hrows
      have htake : rows.take rowGroupRows ≠ [] := by
        intro hnil
        have hlen := congrArg List.length hnil
        rw [List.length_take, List.length_nil] at hlen
        omega
      obtain ⟨group, hs₁, hgroup⟩ :=
        encodeChunk_wrote hs htake hnodup hmax (hfirst hrows) hstep
      obtain ⟨groups, hs', hgroups⟩ := ih hs₁ (by
        -- a chunk with rows behind it is full
        intro hdrop
        have hdpos := List.length_pos_of_ne_nil hdrop
        rw [List.length_drop] at hdpos
        rw [groupRows_append, groupRows_singleton, hgroup.rowCount_eq, hfirst hrows,
          List.length_take, List.length_append, List.length_singleton, Nat.succ_mul]
        omega) (by rw [List.length_append]; exact hrest)
      exact ⟨group :: groups, by rwa [List.append_cons], List.Forall₂.cons hgroup hgroups⟩

omit [Crc32Fast] in
theorem groupRows_eq {columns : List ColumnSchema} {parts : List (List Map)}
    {groups : List RowGroup}
    (h : List.Forall₂ (fun chunk group => RowGroup.Encodes group columns chunk) parts groups) :
    groupRows groups = parts.flatten.length := by
  induction h with
  | nil => rfl
  | cons hgroup _ ih =>
      rw [List.flatten_cons, List.length_append, ← ih, ← hgroup.rowCount_eq]
      simp [groupRows]

/-- A file that the writer writes: a log of the chunks of its rows, with a footer behind it. -/
structure Written (file : List UInt8) (columns : List ColumnSchema) (parts : List (List Map))
    (groups : List RowGroup) : Prop where
  holds : rowGroupLog.Holds (encodeEmptyHeader ++ rowGroupLog.flat groups) fileHeaderLen groups
  encodes : List.Forall₂ (fun chunk group => RowGroup.Encodes group columns chunk) parts groups
  rows_lt : groupRows groups < 2 ^ 64
  footer : ∃ trailer, appendFooter (encodeEmptyHeader ++ rowGroupLog.flat groups) (indexOf groups) =
    .ok (file, trailer)

/-- **The writer writes a log of the chunks**, with its footer behind it. -/
theorem encodeJsonl_ok [SerdeJson] {input : String} {schema : Schema} {options : EncodeOptions}
    {file : List UInt8} (hmax : schema.columns.length ≤ maxCollectionEntries)
    (h : encodeJsonl input schema options = .ok file) :
    ∃ rows groups, validateImplementedSchema schema = .ok schema.columns ∧
      options.rowGroupRows ≠ 0 ∧ parseRows input = .ok rows ∧
      Written file schema.columns (chunks options.rowGroupRows rows) groups := by
  simp only [encodeJsonl, bind_ok, failIf_ok, tryU64_ok, Prod.exists, pure_ok] at h
  obtain ⟨_, hsize, columns, hschema, rows, hrows, s, hfold, total, htotal, file', trailer, hfile,
    rfl⟩ := h
  obtain ⟨rfl, -, hnodup⟩ := validateImplementedSchema_ok hschema
  obtain ⟨groups, hs, hencodes⟩ := encodeChunks_wrote
    (show FileWriter.Wrote _ [] from ⟨trivial, by rw [LogFormat.flat_nil, List.append_nil], rfl⟩)
    hnodup hmax (fun _ => (Nat.zero_mul _).symm) hfold
  rw [List.nil_append] at hs
  have hcount := groupRows_eq hencodes
  rw [flatten_chunks hsize, ← htotal] at hcount
  refine ⟨rows, groups, hschema, hsize, hrows, ⟨hs.chain, ?_⟩, hencodes, ?_, trailer, ?_⟩
  · have := at_mid encodeEmptyHeader (rowGroupLog.flat groups) []
    rwa [List.append_nil] at this
  · rw [hcount]
    exact total.toNat_lt
  · rw [indexOf, hcount, UInt64.ofNat_toNat, ← hs.rowGroups_eq, ← hs.file_eq]
    exact hfile

end CompactCore.Io.V4
