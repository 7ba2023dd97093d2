/-
**What validation of a `CMP4` file establishes.**

The footer parser checks the ranges of the index, and a second pass goes through the row groups that
it describes.  Together they leave no byte of the file unaccounted for.

Main definitions:

* `CompactCore.Io.V4.Stored` — a row group is stored where its entry says;
* `CompactCore.Io.V4.ValidFile` — the row groups of a file tile its body, and its rows.

Main results:

* `CompactCore.Io.V4.validateRowGroups_sound` — the second pass: row groups without gaps;
* `CompactCore.Io.V4.validateFile_sound` — **a file that validates is a valid file**.
-/

import CompactCore.Format.V4.Footer
import CompactCore.Io.V4.File

set_option relaxedAutoImplicit false
set_option autoImplicit false

namespace CompactCore.Io.V4

open Wire CompactError Format Format.V4

section

variable [Crc32Fast]

/-- A row group is stored where its entry says, with the header that the entry describes, and ends
in the checksum of the bytes before it. -/
structure Stored (data : List UInt8) (entry : RowGroupIndexEntry) : Prop where
  header : ∃ rawSize columnCount, At data entry.rowGroupOffset.toNat
    (rowGroupHeader entry.rowGroupIndex entry.firstRowIndex entry.rowCount rawSize columnCount) ∧
      columnCount.toNat = entry.columns.length
  checksum : ∃ body, At data entry.rowGroupOffset.toNat (body ++ le32 (checksum body)) ∧
    body.length + checksumLen = entry.rowGroupLen.toNat

/-- The row groups of a file tile its body and its rows, and the footer takes up the rest. -/
structure ValidFile (data : List UInt8) (footer : FooterIndex) (trailer : FooterTrailer) :
    Prop where
  header : HasHeader data
  body : Tiles (fun entry : RowGroupIndexEntry => entry.rowGroupOffset.toNat)
    (fun entry => entry.rowGroupLen.toNat) fileHeaderLen footer.rowGroups
      trailer.footerOffset.toNat
  index : ∃ bytes, encodeFooter footer = .ok bytes ∧
    At data trailer.footerOffset.toNat (bytes ++ encodeTrailer trailer) ∧
      bytes.length = trailer.footerLen.toNat ∧ trailer.footerChecksum = checksum32 bytes
  length_eq : trailer.footerOffset.toNat + trailer.footerLen.toNat + footerTrailerLen = data.length
  rows : footer.Tiled
  rowCount_ne : ∀ entry ∈ footer.rowGroups, entry.rowCount ≠ 0
  stored : ∀ entry ∈ footer.rowGroups, Stored data entry
  columns : ∀ entry ∈ footer.rowGroups, entry.Valid

/-! ### One row group -/

theorem verifyChecksum_sound {data : List UInt8} {entry : RowGroupIndexEntry} (hfit : Fits data)
    (hlen : checksumLen ≤ entry.rowGroupLen.toNat) (h : verifyChecksum data entry true = .ok ()) :
    ∃ body, At data entry.rowGroupOffset.toNat (body ++ le32 (checksum body)) ∧
      body.length + checksumLen = entry.rowGroupLen.toNat := by
  simp only [verifyChecksum, if_true, bind_ok, checkedSlice_ok hfit, failIf_ok, Bool.not_eq_false,
    verify_eq_true] at h
  obtain ⟨bytes, ⟨hat, hbytes⟩, hsum⟩ := h
  have hsuffix : (bytes.drop (bytes.length - checksumLen)).length = 4 := by
    rw [List.length_drop, hbytes]
    rw [checksumLen] at hlen ⊢
    omega
  -- the bytes are a body and the checksum behind it
  rw [u32OfLe_eq_iff hsuffix] at hsum
  refine ⟨bytes.take (bytes.length - checksumLen), ?_, ?_⟩
  · rw [← hsum, List.take_append_drop]
    exact hat
  · rw [List.length_take]
    omega

theorem verifyRowGroup_sound {data : List UInt8} {entry : RowGroupIndexEntry} (hfit : Fits data)
    (h : verifyRowGroup data entry true = .ok ()) : Stored data entry := by
  simp only [verifyRowGroup, bind_ok, failIf_ok, not_lt, checkedSlice_ok hfit, pure_ok,
    Prod.exists] at h
  obtain ⟨_, hlen, header, ⟨hat, hheader⟩, _, hsum, _, cursor, hcheck, -⟩ := h
  have hle := hat.le
  have hfit' : Fits header := by
    rw [Fits] at hfit ⊢
    omega
  obtain ⟨rawSize, columnCount, hfields, hcount, -⟩ := (checkRowGroupHeader_ok hfit').1 hcheck
  -- the header that was checked is what is stored
  have heq := hfields.eq_self (by rw [hheader, length_rowGroupHeader]; rfl)
  rw [heq] at hat
  exact ⟨⟨rawSize, columnCount, hat, hcount⟩, verifyChecksum_sound hfit (by omega) hsum⟩

/-! ### All row groups -/

/-- **The second pass** finds the row groups one behind the other. -/
theorem validateRowGroups_sound {data : List UInt8} {first last : UInt64}
    {entries : List RowGroupIndexEntry} (hfit : Fits data)
    (h : validateRowGroups data first entries = .ok last) :
    Tiles (fun entry : RowGroupIndexEntry => entry.rowGroupOffset.toNat)
      (fun entry => entry.rowGroupLen.toNat) first.toNat entries last.toNat ∧
        ∀ entry ∈ entries, Stored data entry := by
  induction entries generalizing first with
  | nil =>
      rw [validateRowGroups, Except.ok.injEq] at h
      subst h
      exact ⟨rfl, by simp⟩
  | cons entry entries ih =>
      simp only [validateRowGroups, bind_ok, failIf_ok, not_not, okOr_ok, checkedAdd_eq_some] at h
      obtain ⟨_, hoffset, _, hverify, next, hnext, hrest⟩ := h
      obtain ⟨htiles, hstored⟩ := ih hrest
      rw [hnext] at htiles
      refine ⟨⟨congrArg UInt64.toNat hoffset, htiles⟩, ?_⟩
      intro other hother
      rcases List.mem_cons.1 hother with rfl | hmem
      · exact verifyRowGroup_sound hfit hverify
      · exact hstored other hmem

/-- The footer takes up the rest of the file. -/
theorem decodeFooter_rest {data : List UInt8} {footer : FooterIndex} {trailer : FooterTrailer}
    (hfit : Fits data) (hfooter : decodeFooter data = .ok footer)
    (htrailer : decodeFooterTrailer data = .ok trailer) :
    validateFooterIndex footer (some trailer.footerOffset) = .ok () ∧
      (∃ bytes, encodeFooter footer = .ok bytes ∧
        At data trailer.footerOffset.toNat (bytes ++ encodeTrailer trailer) ∧
          bytes.length = trailer.footerLen.toNat ∧ trailer.footerChecksum = checksum32 bytes) ∧
        trailer.footerOffset.toNat + trailer.footerLen.toNat + footerTrailerLen = data.length := by
  obtain ⟨-, body, trailer', happend⟩ := (decodeFooter_ok hfit).1 hfooter
  rw [appendFooter_trailer happend hfit, Except.ok.injEq] at htrailer
  subst htrailer
  obtain ⟨hoffset, hvalid, bytes, henc, hlen, hsum, rfl⟩ := appendFooter_ok.1 happend
  refine ⟨hvalid, ⟨bytes, encodeFooter_ok.2 ⟨validateFooterIndex_none hvalid, henc⟩, ?_, hlen.symm,
    hsum⟩, ?_⟩
  · have hat := at_mid body (bytes ++ encodeTrailer trailer') []
    rwa [List.append_nil, ← hoffset] at hat
  · rw [List.length_append, List.length_append, length_encodeTrailer]
    omega

/-- **A file that validates is a valid file.** -/
theorem validateFile_sound {data : List UInt8} {footer : FooterIndex} (hfit : Fits data)
    (h : validateFile data = .ok footer) :
    ∃ trailer, decodeFooterTrailer data = .ok trailer ∧ ValidFile data footer trailer := by
  simp only [validateFile, bind_ok, failIf_ok, not_not, tryU64_ok, pure_ok] at h
  obtain ⟨header, hheader, _, hpayload, trailer, htrailer, _, hfooter, start, hstart, last, hgroups,
    _, rfl, rfl⟩ := h
  obtain ⟨hhas, rfl⟩ := decodeHeader_empty.1 ⟨hheader, hpayload⟩
  obtain ⟨hvalid, hrest, hlen⟩ := decodeFooter_rest hfit hfooter htrailer
  obtain ⟨htiles, hstored⟩ := validateRowGroups_sound hfit hgroups
  obtain ⟨hseq, hentries, -⟩ := validateFooterIndex_ok.1 hvalid
  rw [hstart] at htiles
  exact ⟨trailer, htrailer, {
    header := hhas
    body := htiles
    index := hrest
    length_eq := hlen
    rows := validateFooterIndex_tiled hvalid
    rowCount_ne := fun entry hentry => hseq.rowCount_ne hentry
    stored := hstored
    columns := fun entry hentry => (hentries entry hentry).1 }⟩

end

open scoped CompactCore.Reference

set_option maxRecDepth 4096 in
theorem validateFile_sound_two_row_groups : ∃ file footer trailer,
    encodeJsonl Reference.idLines (Reference.idSchema .auto) ⟨1⟩ = .ok file ∧
      validateFile file = .ok footer ∧ decodeFooterTrailer file = .ok trailer ∧
        ValidFile file footer trailer := by
  have hrun : ∃ file, encodeJsonl Reference.idLines (Reference.idSchema .auto) ⟨1⟩ = .ok file ∧
      Fits file ∧ (validateFile file).toOption.isSome = true :=
    Reference.exists_ok _ (by decide +kernel)
  obtain ⟨file, hencode, hfit, hvalid⟩ := hrun
  obtain ⟨footer, hfooter⟩ := Option.isSome_iff_exists.1 hvalid
  rw [toOption_eq_some] at hfooter
  obtain ⟨trailer, htrailer, hfile⟩ := validateFile_sound hfit hfooter
  exact ⟨file, footer, trailer, hencode, hfooter, htrailer, hfile⟩

end CompactCore.Io.V4
