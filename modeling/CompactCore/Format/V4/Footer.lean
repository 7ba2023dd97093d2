/-
**Footers and the indexes they hold.**

The writer appends a footer to the file that it is given, and leaves the file alone when it fails.
An index is read back from every footer that was written for it, and has only one footer.  The index
counts the rows of its row groups without gaps, so the row group that holds a row is found by binary
search.

Main definitions:

* `CompactCore.Format.V4.appendFooterMut` — `append_footer`, with the file as its receiver;
* `CompactCore.Format.V4.findRowGroupByRow` — the row group that holds a row;
* `CompactCore.Format.V4.FooterIndex.Accepted` — the indexes that are written or read.

Main results:

* `CompactCore.Format.V4.footer_bijection` — **an index and its footer determine each other**;
* `CompactCore.Format.V4.findRowGroupByRow_spec` — **every row is found in the one row group that
  holds it**.
-/

import CompactCore.Format.V4
import CompactCore.Reference
import CompactCore.Wire.Method
import CompactCore.Wire.Search
import CompactCore.Wire.Tiling

set_option relaxedAutoImplicit false
set_option autoImplicit false

namespace CompactCore.Format.V4

open Wire CompactError

/-! ### Appending in place -/

section Append

variable [Crc32Fast]

/-- `append_footer`, with the file as its receiver. -/
def appendFooterMut (index : FooterIndex) : EStateM CompactError (List UInt8) FooterTrailer := do
  let file ← get
  let footerOffset ← liftM (tryU64 file.length "cmp4 file length is too large")
  let _ ← liftM (validateFooterIndex index (some footerOffset))
  let footer ← liftM (encodeFooter index)
  let footerLen ← liftM (tryU64 footer.length "cmp4 footer length is too large")
  let footerChecksum := checksum32 footer
  modify (· ++ footer)
  modify (· ++ le64 footerOffset)
  modify (· ++ le64 footerLen)
  modify (· ++ le32 footerChecksum)
  modify (· ++ footerMagic)
  return ⟨footerOffset, footerLen, footerChecksum⟩

/-- What is left in the file. -/
theorem appendFooterMut_ok {body file : List UInt8} {index : FooterIndex}
    {trailer : FooterTrailer} :
    appendFooterMut index body = .ok trailer file ↔
      appendFooter body index = .ok (file, trailer) := by
  simp only [appendFooterMut, Method.bind_ok, Method.get_ok, Method.lift_ok, Method.modify_ok,
    Method.pure_ok, appendFooter, bind_ok, pure_ok, encodeTrailer]
  constructor
  · intro h
    obtain ⟨_, _, ⟨rfl, rfl⟩, offset, _, ⟨hoffset, rfl⟩, _, _, ⟨hvalid, rfl⟩, footer, _,
      ⟨hfooter, rfl⟩, len, _, ⟨hlen, rfl⟩, -, _, rfl, -, _, rfl, -, _, rfl, -, _, rfl, -, _, rfl,
      rfl, rfl⟩ := h
    refine ⟨offset, hoffset, (), hvalid, footer, hfooter, len, hlen, ?_⟩
    simp only [List.append_assoc]
  · intro h
    obtain ⟨offset, hoffset, _, hvalid, footer, hfooter, len, hlen, heq⟩ := h
    cases heq
    refine ⟨_, _, ⟨rfl, rfl⟩, offset, _, ⟨hoffset, rfl⟩, (), _, ⟨hvalid, rfl⟩, footer, _,
      ⟨hfooter, rfl⟩, len, _, ⟨hlen, rfl⟩, (), _, rfl, (), _, rfl, (), _, rfl, (), _, rfl, (), _,
      rfl, rfl, ?_⟩
    simp only [List.append_assoc]

/-- All that can fail comes before the first write. -/
theorem appendFooterMut_error {body file : List UInt8} {index : FooterIndex} {err : CompactError}
    (h : appendFooterMut index body = .error err file) : file = body := by
  simp only [appendFooterMut, Method.bind_error, Method.get_error, Method.get_ok, Method.lift_error,
    Method.lift_ok, Method.modify_error, Method.pure_error, and_false, exists_false, or_false,
    false_or] at h
  obtain ⟨_, _, ⟨rfl, rfl⟩, ⟨-, rfl⟩ | ⟨offset, _, ⟨-, rfl⟩, ⟨-, rfl⟩ | ⟨_, _, ⟨-, rfl⟩,
    ⟨-, rfl⟩ | ⟨footer, _, ⟨-, rfl⟩, -, rfl⟩⟩⟩⟩ := h <;> rfl

end Append

/-! ### An index has one footer -/

section Bijection

variable [Crc32Fast]

/-- The bytes of a file that its trailer points at. -/
def FooterTrailer.footer (trailer : FooterTrailer) (file : List UInt8) : List UInt8 :=
  (file.drop trailer.footerOffset.toNat).take trailer.footerLen.toNat

/-- The footer that was appended is where its trailer points. -/
theorem appendFooter_footer {body file : List UInt8} {index : FooterIndex} {trailer : FooterTrailer}
    (h : appendFooter body index = .ok (file, trailer)) :
    encodeFooter index = .ok (trailer.footer file) := by
  obtain ⟨hoffset, hvalid, footer, henc, hlen, -, rfl⟩ := appendFooter_ok.1 h
  rw [FooterTrailer.footer, List.drop_left' hoffset.symm, List.take_left' hlen.symm]
  exact encodeFooter_ok.2 ⟨validateFooterIndex_none hvalid, henc⟩

theorem appendFooter_trailer {body file : List UInt8} {index : FooterIndex}
    {trailer : FooterTrailer}
    (h : appendFooter body index = .ok (file, trailer)) (hfit : Fits file) :
    decodeFooterTrailer file = .ok trailer := by
  obtain ⟨-, -, footer, -, -, -, rfl⟩ := appendFooter_ok.1 h
  exact (decodeFooterTrailer_ok hfit).2 ⟨body ++ footer, (List.append_assoc ..).symm⟩

/-- What is read of a file was encoded in it. -/
theorem decodeFooter_footer {file : List UInt8} {index : FooterIndex} (hfit : Fits file)
    (h : decodeFooter file = .ok index) : ∃ trailer, decodeFooterTrailer file = .ok trailer ∧
      encodeFooter index = .ok (trailer.footer file) := by
  obtain ⟨-, body, trailer, happend⟩ := (decodeFooter_ok hfit).1 h
  exact ⟨trailer, appendFooter_trailer happend hfit, appendFooter_footer happend⟩

/-- **An index and its footer determine each other.**  A footer that was appended is read back, an
append that fails leaves the file as it was, and the bytes that an index is read from are its
encoding, so that two files of the same index have the same footer. -/
theorem footer_bijection :
    (∀ (body : List UInt8) (index : FooterIndex), index.WithinLimits →
      (∀ trailer file, appendFooterMut index body = .ok trailer file → Fits file →
        body <+: file ∧ decodeFooter file = .ok index) ∧
      ∀ err file, appendFooterMut index body = .error err file → file = body) ∧
    (∀ file index, Fits file → decodeFooter file = .ok index →
      ∃ trailer, decodeFooterTrailer file = .ok trailer ∧
        encodeFooter index = .ok (trailer.footer file)) ∧
    ∀ file file' index, Fits file → Fits file' → decodeFooter file = .ok index →
      decodeFooter file' = .ok index → ∃ trailer trailer',
        decodeFooterTrailer file = .ok trailer ∧ decodeFooterTrailer file' = .ok trailer' ∧
          trailer.footer file = trailer'.footer file' := by
  refine ⟨fun body index hlimit => ⟨fun trailer file happend hfit => ?_, fun err file hfail => ?_⟩,
    fun file index hfit h => decodeFooter_footer hfit h, ?_⟩
  · rw [appendFooterMut_ok] at happend
    obtain ⟨-, -, footer, -, -, -, rfl⟩ := appendFooter_ok.1 happend
    exact ⟨List.prefix_append body _, (decodeFooter_ok hfit).2 ⟨hlimit, body, trailer, happend⟩⟩
  · exact appendFooterMut_error hfail
  · intro file file' index hfit hfit' h h'
    obtain ⟨trailer, htrailer, henc⟩ := decodeFooter_footer hfit h
    obtain ⟨trailer', htrailer', henc'⟩ := decodeFooter_footer hfit' h'
    rw [henc, Except.ok.injEq] at henc'
    exact ⟨trailer, trailer', htrailer, htrailer', henc'⟩

end Bijection

/-! ### Two row groups, and their index -/

section TwoGroups

open scoped CompactCore.Reference

def twoBody : List UInt8 := [1, 2, 3, 4, 5, 6, 7, 8]

/-- The index of a row group of two rows and one of three. -/
def twoGroups : FooterIndex :=
  ⟨5, [⟨0, 0, 2, 0, 4, [⟨"id", 0, 1, 1, 3, 2, 0, [7]⟩]⟩,
    ⟨1, 2, 3, 4, 4, [⟨"id", 4, 1, 5, 3, 2, 1, [7, 8]⟩]⟩]⟩

set_option maxRecDepth 8192 in
theorem exists_appendFooter_twoGroups : ∃ trailer file,
    appendFooterMut twoGroups twoBody = .ok trailer file ∧ Fits file := by
  have hrun : ∃ p : List UInt8 × FooterTrailer,
      appendFooter twoBody twoGroups = .ok p ∧ Fits p.1 := Reference.exists_ok _ (by decide +kernel)
  obtain ⟨⟨file, trailer⟩, happend, hfit⟩ := hrun
  exact ⟨trailer, file, appendFooterMut_ok.2 happend, hfit⟩

theorem withinLimits_twoGroups : twoGroups.WithinLimits := by
  constructor
  · decide
  · intro rowGroup hgroup
    rcases List.mem_pair.1 hgroup with rfl | rfl
    · decide
    · decide

theorem footer_bijection_two_groups : ∃ trailer file,
    appendFooterMut twoGroups twoBody = .ok trailer file ∧ twoBody <+: file ∧
      decodeFooter file = .ok twoGroups ∧ ∃ trailer', decodeFooterTrailer file = .ok trailer' ∧
        encodeFooter twoGroups = .ok (trailer'.footer file) := by
  obtain ⟨trailer, file, happend, hfit⟩ := exists_appendFooter_twoGroups
  obtain ⟨happended, hread, -⟩ := footer_bijection
  obtain ⟨hinit, hdecode⟩ := (happended twoBody twoGroups withinLimits_twoGroups).1 _ _ happend hfit
  exact ⟨trailer, file, happend, hinit, hdecode, hread file twoGroups hfit hdecode⟩

end TwoGroups

/-! ### The row group of a row -/

/-- Locate the row group that owns a row with binary search. -/
def findRowGroupByRow (index : FooterIndex) (rowNumber : UInt64) : Option RowGroupIndexEntry := do
  let position := partitionPoint
    (fun rowGroup : RowGroupIndexEntry => rowGroup.firstRowIndex ≤ rowNumber) index.rowGroups
  let previous ← usizeSub position 1
  let rowGroup ← index.rowGroups[previous]?
  let rowGroupEnd ← checkedAdd rowGroup.firstRowIndex rowGroup.rowCount
  if rowNumber < rowGroupEnd then some rowGroup else none

/-- A row group holds a row. -/
structure RowGroupIndexEntry.Owns (rowGroup : RowGroupIndexEntry) (row : UInt64) : Prop where
  first_le : rowGroup.firstRowIndex.toNat ≤ row.toNat
  lt_end : row.toNat < rowGroup.firstRowIndex.toNat + rowGroup.rowCount.toNat

/-- Row groups whose rows are counted without gaps tile the rows. -/
theorem Sequential.tiles {position firstRow : ℕ} {rowGroups : List RowGroupIndexEntry}
    (h : Sequential position firstRow rowGroups) :
    Tiles (·.firstRowIndex.toNat) (·.rowCount.toNat) firstRow rowGroups
      (firstRow + rowSum rowGroups) := by
  induction rowGroups generalizing position firstRow with
  | nil => rfl
  | cons rowGroup rowGroups ih =>
      obtain ⟨-, -, hfirst, hrest⟩ := h
      refine ⟨hfirst, ?_⟩
      rw [rowSum_cons, ← Nat.add_assoc]
      exact ih hrest

/-- No row group that is counted is empty. -/
theorem Sequential.rowCount_ne {position firstRow : ℕ} {rowGroups : List RowGroupIndexEntry}
    (h : Sequential position firstRow rowGroups) {rowGroup : RowGroupIndexEntry}
    (hmem : rowGroup ∈ rowGroups) : rowGroup.rowCount ≠ 0 := by
  obtain ⟨before, after, rfl⟩ := List.append_of_mem hmem
  exact (sequential_append.1 h).2.2.1

/-- The row groups of an index tile its rows. -/
def FooterIndex.Tiled (index : FooterIndex) : Prop :=
  Tiles (fun rowGroup : RowGroupIndexEntry => rowGroup.firstRowIndex.toNat)
    (fun rowGroup => rowGroup.rowCount.toNat) 0 index.rowGroups index.totalRowCount.toNat

theorem validateFooterIndex_tiled {index : FooterIndex} {footerOffset : Option UInt64}
    (h : validateFooterIndex index footerOffset = .ok ()) : index.Tiled := by
  obtain ⟨hseq, -, htotal⟩ := validateFooterIndex_ok.1 h
  have htiles := hseq.tiles
  rwa [Nat.zero_add, ← htotal] at htiles

/-- The search finds the row group that holds the row. -/
theorem findRowGroupByRow_owns {index : FooterIndex} {row : UInt64} {rowGroup : RowGroupIndexEntry}
    (hrows : index.Tiled) (hmem : rowGroup ∈ index.rowGroups) (howns : rowGroup.Owns row) :
    findRowGroupByRow index row = some rowGroup := by
  have hend := (hrows.bounds hmem).2
  have hpairwise := hrows.pairwise
  obtain ⟨before, after, hsplit⟩ := List.append_of_mem hmem
  rw [hsplit, List.pairwise_append, List.pairwise_cons] at hpairwise
  obtain ⟨-, ⟨hafter, -⟩, hbefore⟩ := hpairwise
  -- the row groups up to the owner begin at the row or before it, those behind it do not
  have hposition : partitionPoint
      (fun rowGroup : RowGroupIndexEntry => decide (rowGroup.firstRowIndex ≤ row))
      ((before ++ [rowGroup]) ++ after) = (before ++ [rowGroup]).length := by
    refine partitionPoint_append (fun other hother => ?_) fun other hother => ?_
    · rw [decide_eq_true_eq, UInt64.le_iff_toNat_le]
      have hfirst := howns.first_le
      rcases List.mem_append.1 hother with hother | hother
      · have := hbefore other hother rowGroup List.mem_cons_self
        omega
      · rw [List.mem_singleton.1 hother]
        exact hfirst
    · rw [decide_eq_false_iff_not, UInt64.le_iff_toNat_le]
      have := hafter other hother
      have := howns.lt_end
      omega
  obtain ⟨rowGroupEnd, hrowGroupEnd⟩ :
      ∃ v : UInt64, v.toNat = rowGroup.firstRowIndex.toNat + rowGroup.rowCount.toNat := by
    have := index.totalRowCount.toNat_lt
    exact exists_toNat_eq (by omega)
  have hlt : row < rowGroupEnd := by
    rw [UInt64.lt_iff_toNat_lt, hrowGroupEnd]
    exact howns.lt_end
  have hget : (before ++ rowGroup :: after)[before.length]? = some rowGroup := by
    rw [List.getElem?_append_right (Nat.le_refl _), Nat.sub_self]
    rfl
  rw [List.append_assoc, List.singleton_append] at hposition
  have hprevious : usizeSub (before ++ [rowGroup]).length 1 = some before.length :=
    usizeSub_eq_some.2 (by rw [List.length_append, List.length_singleton, Nat.add_comm])
  simp only [findRowGroupByRow, hsplit, hposition, hprevious, Option.bind_eq_bind, Option.bind_some,
    hget, checkedAdd_eq_some.2 hrowGroupEnd, if_pos hlt]

/-- What the search finds is a row group of the index that ends behind the row. -/
theorem findRowGroupByRow_sound {index : FooterIndex} {row : UInt64} {rowGroup : RowGroupIndexEntry}
    (h : findRowGroupByRow index row = some rowGroup) : rowGroup ∈ index.rowGroups ∧
      row.toNat < rowGroup.firstRowIndex.toNat + rowGroup.rowCount.toNat := by
  simp only [findRowGroupByRow, Option.bind_eq_bind, Option.bind_eq_some_iff,
    checkedAdd_eq_some] at h
  obtain ⟨previous, -, found, hget, rowGroupEnd, hend, hlt⟩ := h
  split at hlt
  · rename_i hrow
    obtain rfl := Option.some.inj hlt
    rw [UInt64.lt_iff_toNat_lt] at hrow
    exact ⟨List.mem_of_getElem? hget, by omega⟩
  · cases hlt

/-- An index that was read from a file or written to one. -/
def FooterIndex.Accepted [Crc32Fast] (index : FooterIndex) : Prop :=
  (∃ file, decodeFooter file = .ok index) ∨
    ∃ body trailer file, appendFooterMut index body = .ok trailer file

theorem FooterIndex.Accepted.validate [Crc32Fast] {index : FooterIndex} (h : index.Accepted) :
    ∃ footerOffset, validateFooterIndex index footerOffset = .ok () := by
  rcases h with ⟨file, hread⟩ | ⟨body, trailer, file, happend⟩
  · simp only [decodeFooter, bind_ok, pure_ok] at hread
    obtain ⟨trailer, -, _, -, _, -, _, -, _, -, _, -, _, -, ⟨read, _⟩, -, _, -, _, hvalid, rfl⟩ :=
      hread
    exact ⟨_, hvalid⟩
  · exact ⟨_, (appendFooter_ok.1 (appendFooterMut_ok.1 happend)).2.1⟩

/-- **Every row is found in the one row group that holds it**, and a row behind the last one is not
found. -/
theorem findRowGroupByRow_spec [Crc32Fast] {index : FooterIndex} (h : index.Accepted)
    (row : UInt64) :
    (row < index.totalRowCount →
      ∃ rowGroup, findRowGroupByRow index row = some rowGroup ∧ rowGroup ∈ index.rowGroups ∧
        rowGroup.Owns row ∧ ∀ other ∈ index.rowGroups, other.Owns row → other = rowGroup) ∧
    (index.totalRowCount ≤ row → findRowGroupByRow index row = none) := by
  obtain ⟨footerOffset, hvalid⟩ := h.validate
  have hrows := validateFooterIndex_tiled hvalid
  rw [UInt64.lt_iff_toNat_lt, UInt64.le_iff_toNat_le]
  refine ⟨fun hlt => ?_, fun hle => ?_⟩
  · obtain ⟨rowGroup, hmem, hfirst, hend⟩ := hrows.exists_mem (Nat.zero_le row.toNat) hlt
    have hfind := findRowGroupByRow_owns hrows hmem ⟨hfirst, hend⟩
    refine ⟨rowGroup, hfind, hmem, ⟨hfirst, hend⟩, fun other hother hother' => ?_⟩
    have hfind' := findRowGroupByRow_owns hrows hother hother'
    rw [hfind, Option.some.injEq] at hfind'
    exact hfind'.symm
  · rw [Option.eq_none_iff_forall_ne_some]
    intro rowGroup hfind
    obtain ⟨hmem, hlt⟩ := findRowGroupByRow_sound hfind
    have := (hrows.bounds hmem).2
    omega

open scoped CompactCore.Reference in
/-- The last row of a row group, the first one of the next, and a row behind them. -/
theorem findRowGroupByRow_spec_two_groups :
    findRowGroupByRow twoGroups 1 = twoGroups.rowGroups[0]? ∧
      findRowGroupByRow twoGroups 2 = twoGroups.rowGroups[1]? ∧
      findRowGroupByRow twoGroups 5 = none := by
  obtain ⟨trailer, file, happend, -⟩ := exists_appendFooter_twoGroups
  have haccepted : twoGroups.Accepted := Or.inr ⟨twoBody, trailer, file, happend⟩
  obtain ⟨first, hfirst, -, -, hfirstOnly⟩ := (findRowGroupByRow_spec haccepted 1).1 (by decide)
  obtain ⟨second, hsecond, -, -, hsecondOnly⟩ := (findRowGroupByRow_spec haccepted 2).1 (by decide)
  refine ⟨?_, ?_, (findRowGroupByRow_spec haccepted 5).2 (by decide)⟩
  · rw [hfirst, ← hfirstOnly twoGroups.rowGroups[0] (List.getElem_mem _) ⟨by decide, by decide⟩]
    rfl
  · rw [hsecond, ← hsecondOnly twoGroups.rowGroups[1] (List.getElem_mem _) ⟨by decide, by decide⟩]
    rfl

end CompactCore.Format.V4
