/-
**The tail that recovery discards.**

Recovery reports whether it has discarded bytes behind the row groups that it found.  The footer of
a file is behind its row groups, and recovery does not look at it: an intact footer is reported as
discarded, like any other bytes.

Main definitions:

* `CompactCore.Io.V4.FooterBehind` — the bytes behind the recovered row groups are their footer;
* `CompactCore.Io.V4.Intact` — a header, row groups, and their footer.

Main results:

* `CompactCore.Io.V4.footerBehind_iff` — the footer is behind the recovered row groups in intact
  files only;
* `CompactCore.Io.V4.discardedTail_encodeJsonl` — a file of the writer has a tail;
* `CompactCore.Io.V4.discardedTail_iff` — **when the flag tells a footer from other bytes**.
-/

import CompactCore.Io.V4.Recovery
import CompactCore.Io.V4.Validate

set_option relaxedAutoImplicit false
set_option autoImplicit false

namespace CompactCore.Io.V4

open Wire CompactError Format Format.V4 Io.V3

section

variable [Crc32Fast]

/-! ### Footers behind row groups -/

/-- The bytes behind the recovered row groups are a valid footer and trailer, which describe exactly
these row groups. -/
def FooterBehind (data : List UInt8) (r : FileRecovery) : Prop :=
  decodeFooter data = .ok r.footer ∧
    ∃ trailer, decodeFooterTrailer data = .ok trailer ∧ trailer.footerOffset = r.validBodyLen

/-- A file that nothing is missing from: a header, row groups that follow each other, and behind
them a valid footer and trailer, which describe exactly these row groups. -/
def Intact (data : List UInt8) : Prop :=
  HasHeader data ∧ ∃ groups, rowGroupLog.Holds data fileHeaderLen groups ∧
    groupRows groups < 2 ^ 64 ∧ decodeFooter data = .ok (indexOf groups) ∧
      ∃ trailer, decodeFooterTrailer data = .ok trailer ∧
        trailer.footerOffset.toNat = fileHeaderLen + (rowGroupLog.flat groups).length

/-- Row groups with their footer behind them are all that recovery finds. -/
theorem complete_of_decodeFooter {data : List UInt8} {groups : List RowGroup}
    {trailer : FooterTrailer} (hfit : Fits data)
    (hlog : rowGroupLog.Holds data fileHeaderLen groups) (hrows : groupRows groups < 2 ^ 64)
    (hfooter : decodeFooter data = .ok (indexOf groups))
    (htrailer : decodeFooterTrailer data = .ok trailer)
    (hoffset : trailer.footerOffset.toNat = fileHeaderLen + (rowGroupLog.flat groups).length) :
    rowGroupLog.Complete data fileHeaderLen groups := by
  obtain ⟨-, ⟨bytes, henc, hat, -⟩, -⟩ := decodeFooter_rest hfit hfooter htrailer
  rw [hoffset] at hat
  exact complete_of_index hfit hlog hrows (encodeFooter_ok.1 henc).2 (at_append.1 hat).1

/-- **The footer is behind the recovered row groups** in intact files, and in no others. -/
theorem footerBehind_iff {data : List UInt8} {r : FileRecovery} (hfit : Fits data)
    (h : recoverFilePrefix data = .ok r) : FooterBehind data r ↔ Intact data := by
  obtain ⟨hheader, groups, hcomplete, hrows, rfl⟩ := (recoverFilePrefix_ok hfit).1 h
  have hword : fileHeaderLen + (rowGroupLog.flat groups).length < 2 ^ 64 :=
    lt_of_le_of_lt hcomplete.1.le hfit
  constructor
  · rintro ⟨hfooter, trailer, htrailer, hoffset⟩
    refine ⟨hheader, groups, hcomplete.1, hrows, hfooter, trailer, htrailer, ?_⟩
    rw [hoffset]
    exact toNat_ofNat hword
  · rintro ⟨-, groups', hlog, hrows', hfooter, trailer, htrailer, hoffset⟩
    have hcomplete' := complete_of_decodeFooter hfit hlog hrows' hfooter htrailer hoffset
    rw [LogFormat.complete_unique hcomplete' hcomplete] at hfooter hoffset
    exact ⟨hfooter, trailer, htrailer, eq_ofNat hoffset⟩

/-- A footer takes room behind the row groups. -/
theorem FooterBehind.discardedTail {data : List UInt8} {r : FileRecovery} (hfit : Fits data)
    (h : recoverFilePrefix data = .ok r) (hbehind : FooterBehind data r) :
    r.discardedTail = true := by
  obtain ⟨-, groups, hcomplete, -, rfl⟩ := (recoverFilePrefix_ok hfit).1 h
  obtain ⟨hfooter, trailer, htrailer, hoffset⟩ := hbehind
  obtain ⟨-, -, hlen⟩ := decodeFooter_rest hfit hfooter htrailer
  have hword : fileHeaderLen + (rowGroupLog.flat groups).length < 2 ^ 64 :=
    lt_of_le_of_lt hcomplete.1.le hfit
  have hend : trailer.footerOffset.toNat = fileHeaderLen + (rowGroupLog.flat groups).length := by
    rw [hoffset]
    exact toNat_ofNat hword
  refine decide_eq_true ?_
  rw [footerTrailerLen] at hlen
  omega

/-- The flag says whether there are bytes behind the recovered row groups. -/
theorem discardedTail_eq_false {data : List UInt8} {r : FileRecovery} (hfit : Fits data)
    (h : recoverFilePrefix data = .ok r) :
    r.discardedTail = false ↔ data.drop r.validBodyLen.toNat = [] := by
  obtain ⟨-, groups, hcomplete, -, rfl⟩ := (recoverFilePrefix_ok hfit).1 h
  have hlen : (UInt64.ofNat (fileHeaderLen + (rowGroupLog.flat groups).length)).toNat =
      fileHeaderLen + (rowGroupLog.flat groups).length :=
    toNat_ofNat (lt_of_le_of_lt hcomplete.1.le hfit)
  rw [recoveryOf, List.drop_eq_nil_iff, hlen, decide_eq_false_iff_not, not_lt]

/-! ### Files that validate, and files of the writer -/

/-- The row groups of a log end where they tile their index to. -/
theorem tiles_indexEntries {groups : List RowGroup} {offset last : ℕ}
    (hword : offset + (rowGroupLog.flat groups).length < 2 ^ 64)
    (h : Tiles (fun entry : RowGroupIndexEntry => entry.rowGroupOffset.toNat)
      (fun entry => entry.rowGroupLen.toNat) offset (indexEntries offset groups) last) :
    last = offset + (rowGroupLog.flat groups).length := by
  induction groups generalizing offset with
  | nil => exact h.symm
  | cons group groups ih =>
      rw [LogFormat.flat_cons, List.length_append] at hword ⊢
      rw [show rowGroupLog.bytes group = group.bytes from rfl] at hword ⊢
      obtain ⟨-, hrest⟩ := h
      dsimp only at hrest
      rw [RowGroup.toNat_rowGroupLen (by omega)] at hrest
      rw [ih (by omega) hrest, Nat.add_assoc]

/-- A file that validates with the recovered footer has it behind the recovered row groups. -/
theorem footerBehind_of_validateFile {data : List UInt8} {r : FileRecovery} (hfit : Fits data)
    (h : recoverFilePrefix data = .ok r) (hvalid : validateFile data = .ok r.footer) :
    FooterBehind data r := by
  obtain ⟨trailer, htrailer, hfile⟩ := validateFile_sound hfit hvalid
  have hfooter : decodeFooter data = .ok r.footer := by
    simp only [validateFile, bind_ok, pure_ok] at hvalid
    obtain ⟨_, -, _, -, _, -, _, hfooter, _, -, _, -, _, -, rfl⟩ := hvalid
    exact hfooter
  obtain ⟨-, groups, hcomplete, -, rfl⟩ := (recoverFilePrefix_ok hfit).1 h
  have hword : fileHeaderLen + (rowGroupLog.flat groups).length < 2 ^ 64 :=
    lt_of_le_of_lt hcomplete.1.le hfit
  exact ⟨hfooter, trailer, htrailer, eq_ofNat (tiles_indexEntries hword hfile.body)⟩

/-- Writing a row group starts with its header. -/
theorem encodeRowGroup_header {rowGroupIndex firstRowIndex : ℕ} {rows : List Map}
    {columns : List ColumnSchema} {rowGroupOffset : UInt64} {bytes : List UInt8}
    {entry : RowGroupIndexEntry}
    (h : encodeRowGroup rowGroupIndex firstRowIndex rows columns rowGroupOffset =
      .ok (bytes, entry)) :
    ∃ index firstRow rowCount columnCount, columnCount.toNat = columns.length ∧
      rowGroupHeader index firstRow rowCount 0 columnCount <+: bytes := by
  simp only [encodeRowGroup, bind_ok, tryU64_ok, tryU32_ok, pure_ok, Prod.mk.injEq] at h
  obtain ⟨rowCount, -, columnCount, hcount, index, -, firstRow, -, s, hfold, _, -, rfl, -⟩ := h
  refine ⟨index, firstRow, rowCount, columnCount, hcount, ?_⟩
  have hhead := foldlM_invariant
    (P := fun _ (s : RowGroupWriter) =>
      rowGroupHeader index firstRow rowCount 0 columnCount <+: s.rowGroup)
    (fun done column s s' hs hstep => by
      simp only [encodeRowGroupColumn, bind_ok, pure_ok] at hstep
      obtain ⟨chunk, -, metadata, -, metadataLen, -, _, -, _, -, _, -, rfl⟩ := hstep
      simp only [List.append_assoc]
      exact hs.trans (List.prefix_append _ _))
    List.prefix_rfl hfold
  exact hhead.trans (List.prefix_append _ _)

/-- The writer appends to what it has written. -/
theorem bytes_le_of_encodeChunks {columns : List ColumnSchema} {rowGroupRows : ℕ}
    {parts : List (List Map × ℕ)} {s s' : FileWriter}
    (h : parts.foldlM (encodeChunk columns rowGroupRows) s = .ok s') : s.file <+: s'.file := by
  refine foldlM_invariant (P := fun _ (s' : FileWriter) => s.file <+: s'.file)
    (fun done chunk s₁ s₂ hs hstep => ?_) List.prefix_rfl h
  simp only [encodeChunk, bind_ok, Prod.exists, pure_ok] at hstep
  obtain ⟨_, -, _, -, bytes, _, -, rfl⟩ := hstep
  exact hs.trans (List.prefix_append _ _)

/-- Row groups of more columns than the scanner takes are not found. -/
theorem recovered_nil {data : List UInt8} {groups : List RowGroup}
    {index firstRow rowCount rawSize : UInt64} {columnCount : UInt32}
    (hlog : rowGroupLog.Holds data fileHeaderLen groups)
    (hat : At data fileHeaderLen (rowGroupHeader index firstRow rowCount rawSize columnCount))
    (hcount : maxCollectionEntries < columnCount.toNat) : groups = [] := by
  cases groups with
  | nil => rfl
  | cons group groups =>
      obtain ⟨⟨⟨hwell, -⟩, -⟩, hflat⟩ := hlog
      rw [LogFormat.flat_cons, at_append] at hflat
      have hbody := (RowGroup.at_bytes.1 hflat.1).1
      rw [RowGroup.body, at_append] at hbody
      have heq := hbody.1.eq_of_length hat (by rw [length_rowGroupHeader, length_rowGroupHeader])
      -- the last field of a header is its number of columns
      simp only [rowGroupHeader, ← List.append_assoc] at heq
      have hlast := congrArg leNat (List.append_inj' heq rfl).2
      have hle := hwell.length_le
      have hword : group.chunks.length < UInt32.size := lt_of_le_of_lt hle (by decide)
      rw [leNat_le32, leNat_le32, UInt32.toNat_ofNat_of_lt' hword] at hlast
      omega

/-- The row groups of a file of the writer end before its footer.  A schema may have more columns
than the scanner takes; none of its row groups is then found. -/
theorem recovered_body_lt [SerdeJson] {input : String} {schema : Schema} {options : EncodeOptions}
    {data : List UInt8} {groups : List RowGroup} (hfit : Fits data)
    (hfile : encodeJsonl input schema options = .ok data)
    (hcomplete : rowGroupLog.Complete data fileHeaderLen groups) :
    fileHeaderLen + (rowGroupLog.flat groups).length < data.length := by
  by_cases hmax : schema.columns.length ≤ maxCollectionEntries
  · obtain ⟨rows, groups', -, -, -, hwritten⟩ := encodeJsonl_ok hmax hfile
    obtain ⟨trailer, hfooter⟩ := hwritten.footer
    obtain ⟨-, -, footer, -, -, -, hsplit⟩ := appendFooter_ok.1 hfooter
    rw [LogFormat.complete_unique hcomplete (hwritten.complete hfit), hsplit]
    simp only [List.length_append, length_encodeTrailer, footerTrailerLen]
    rw [show encodeEmptyHeader.length = fileHeaderLen from rfl]
    omega
  · simp only [encodeJsonl, bind_ok, failIf_ok, tryU64_ok, Prod.exists, pure_ok] at hfile
    obtain ⟨_, hsize, columns, hschema, rows, -, s, hfold, total, htotal, file', trailer, hfooter,
      rfl⟩ := hfile
    obtain ⟨rfl, -⟩ := validateImplementedSchema_ok hschema
    obtain ⟨-, -, footer, hindex, -, -, hsplit⟩ := appendFooter_ok.1 hfooter
    have hheader := (bytes_le_of_encodeChunks hfold).length_le
    rw [show encodeEmptyHeader.length = fileHeaderLen from rfl] at hheader
    have hnil : groups = [] := by
      cases hparts : chunks options.rowGroupRows rows with
      | nil =>
          have hrows := flatten_chunks hsize rows
          rw [hparts] at hrows hfold
          cases hfold
          rw [← hrows] at htotal
          obtain rfl : total = 0 := UInt64.toNat_inj.1 htotal
          have hempty : rowGroupLog.Holds file' fileHeaderLen [] :=
            ⟨trivial, at_nil.2 (by rw [hsplit, List.length_append]; exact Nat.le_add_right _ _)⟩
          refine LogFormat.complete_unique hcomplete
            (complete_of_index hfit hempty (by decide) hindex ?_)
          have hat := at_mid encodeEmptyHeader footer (encodeTrailer trailer)
          rwa [List.append_assoc, ← hsplit] at hat
      | cons chunk parts =>
          rw [hparts, List.zipIdx_cons, List.foldlM_cons, bind_ok] at hfold
          obtain ⟨s₁, hstep, hrest⟩ := hfold
          simp only [encodeChunk, bind_ok, Prod.exists, pure_ok] at hstep
          obtain ⟨_, -, _, -, bytes, _, hgroup, rfl⟩ := hstep
          obtain ⟨index, firstRow, rowCount, columnCount, hcount, head, hhead⟩ :=
            encodeRowGroup_header hgroup
          obtain ⟨rest, hs⟩ := bytes_le_of_encodeChunks hrest
          have hat :=
            at_mid encodeEmptyHeader (rowGroupHeader index firstRow rowCount 0 columnCount)
            (head ++ (rest ++ (footer ++ encodeTrailer trailer)))
          rw [List.append_assoc, ← List.append_assoc _ head, hhead, ← List.append_assoc,
            ← List.append_assoc, hs, ← hsplit] at hat
          exact recovered_nil hcomplete.1 hat (by omega)
    rw [hnil, hsplit, LogFormat.flat_nil]
    simp only [List.length_append, length_encodeTrailer, footerTrailerLen, List.length_nil]
    omega

/-- **A file of the writer has a tail behind the recovered row groups**: its footer. -/
theorem discardedTail_encodeJsonl [SerdeJson] {input : String} {schema : Schema}
    {options : EncodeOptions} {data : List UInt8} {r : FileRecovery} (hfit : Fits data)
    (hfile : encodeJsonl input schema options = .ok data)
    (h : recoverFilePrefix data = .ok r) : r.discardedTail = true := by
  obtain ⟨-, groups, hcomplete, -, rfl⟩ := (recoverFilePrefix_ok hfit).1 h
  exact decide_eq_true (recovered_body_lt hfit hfile hcomplete)

omit [Crc32Fast] in
theorem footerMagic_suffix (body : List UInt8) (trailer : FooterTrailer) :
    footerMagic <:+ body ++ encodeTrailer trailer := by
  rw [encodeTrailer, ← List.append_assoc, ← List.append_assoc, ← List.append_assoc]
  exact List.suffix_append _ _

/-- A file of the writer ends with the magic of its footer. -/
theorem footerMagic_suffix_of_encodeJsonl [SerdeJson] {input : String} {schema : Schema}
    {options : EncodeOptions} {data : List UInt8}
    (hfile : encodeJsonl input schema options = .ok data) : footerMagic <:+ data := by
  simp only [encodeJsonl, bind_ok, Prod.exists, pure_ok] at hfile
  obtain ⟨_, -, _, -, _, -, _, -, _, -, file, trailer, hfooter, rfl⟩ := hfile
  obtain ⟨-, -, _, -, -, -, hsplit⟩ := appendFooter_ok.1 hfooter
  rw [hsplit, ← List.append_assoc]
  exact footerMagic_suffix _ _

/-- **When the flag tells a footer from other bytes**: where there is no footer to tell. -/
theorem discardedTail_iff [SerdeJson] {data : List UInt8} {r : FileRecovery} (hfit : Fits data)
    (h : recoverFilePrefix data = .ok r) :
    ((r.discardedTail = false ↔ data.drop r.validBodyLen.toNat = [] ∨ FooterBehind data r) ∧
      ((∃ input schema options, encodeJsonl input schema options = .ok data) →
        r.discardedTail = false) ∧
      (validateFile data = .ok r.footer → r.discardedTail = false)) ↔
    ¬Intact data ∧ ¬∃ input schema options, encodeJsonl input schema options = .ok data := by
  rw [← footerBehind_iff hfit h]
  constructor
  · rintro ⟨hflag, hproduced, -⟩
    constructor
    · intro hbehind
      have hfalse := hflag.2 (Or.inr hbehind)
      rw [hbehind.discardedTail hfit h] at hfalse
      cases hfalse
    · rintro ⟨input, schema, options, hfile⟩
      have hfalse := hproduced ⟨input, schema, options, hfile⟩
      rw [discardedTail_encodeJsonl hfit hfile h] at hfalse
      cases hfalse
  · rintro ⟨hbehind, hproduced⟩
    refine ⟨?_, fun hfile => absurd hfile hproduced, fun hvalid =>
      absurd (footerBehind_of_validateFile hfit h hvalid) hbehind⟩
    rw [discardedTail_eq_false hfit h, or_iff_left hbehind]

end

open scoped CompactCore.Reference

set_option maxRecDepth 8192 in
/-- Two row groups behind which the footer is cut off: the flag tells it from a footer. -/
theorem discardedTail_iff_cut : ∃ file r,
    encodeJsonl Reference.idLines (Reference.idSchema .auto) ⟨1⟩ = .ok file ∧
      recoverFilePrefix file.dropLast = .ok r ∧ r.footer.rowGroups.length = 2 ∧
      (r.discardedTail = false ↔
        file.dropLast.drop r.validBodyLen.toNat = [] ∨ FooterBehind file.dropLast r) ∧
      ((∃ input schema options, encodeJsonl input schema options = .ok file.dropLast) →
        r.discardedTail = false) ∧
      (validateFile file.dropLast = .ok r.footer → r.discardedTail = false) := by
  obtain ⟨file, hencode, hfit, hmagic, hrun⟩ := Reference.exists_ok
    (x := encodeJsonl Reference.idLines (Reference.idSchema .auto) ⟨1⟩)
    (fun file => Fits file.dropLast ∧ ¬footerMagic <:+ file.dropLast ∧
      (recoverFilePrefix file.dropLast).toOption.any fun r => r.footer.rowGroups.length = 2)
    (by decide +kernel)
  obtain ⟨r, hrecover, hgroups⟩ := Reference.exists_ok _ hrun
  refine ⟨file, r, hencode, hrecover, hgroups, (discardedTail_iff hfit hrecover).2 ⟨?_, ?_⟩⟩
  · rintro ⟨-, groups, -, -, -, trailer, htrailer, -⟩
    obtain ⟨body, hsplit⟩ := (decodeFooterTrailer_ok hfit).1 htrailer
    exact hmagic (hsplit ▸ footerMagic_suffix body trailer)
  · rintro ⟨input, schema, options, hfile⟩
    exact hmagic (footerMagic_suffix_of_encodeJsonl hfile)

set_option maxRecDepth 8192 in
/-- A file of two row groups and its footer, which counts as discarded. -/
theorem exists_discardedTail : ∃ file r,
    encodeJsonl Reference.idLines (Reference.idSchema .auto) ⟨1⟩ = .ok file ∧
      recoverFilePrefix file = .ok r ∧ FooterBehind file r ∧ validateFile file = .ok r.footer ∧
      r.discardedTail = true := by
  obtain ⟨file, hencode, hfit, hrun⟩ := Reference.exists_ok
    (x := encodeJsonl Reference.idLines (Reference.idSchema .auto) ⟨1⟩)
    (fun file => Fits file ∧ (recoverFilePrefix file).toOption.any fun r =>
      validateFile file = .ok r.footer) (by decide +kernel)
  obtain ⟨r, hrecover, hvalid⟩ := Reference.exists_ok _ hrun
  have hbehind := footerBehind_of_validateFile hfit hrecover hvalid
  exact ⟨file, r, hencode, hrecover, hbehind, hvalid, hbehind.discardedTail hfit hrecover⟩

end CompactCore.Io.V4
