/-
**Recovering `CMP4` files.**

A file that is cut off, or damaged behind some row group, is recovered up to the damage.  The
scanner has no end marker to go by: it stops where no row group can be read, and the footer of a
file, whose first word is a row count, must not be read as one.

Main definitions:

* `CompactCore.Io.V4.RowGroupIndexEntry.endOffset`, `CompactCore.Io.V4.endOfEntries` — where row
  groups end.

Main results:

* `CompactCore.Io.V4.not_at_footer`, `CompactCore.Io.V4.complete_of_index` — **a footer is not a row
  group**, so that a log with its footer behind it is complete;
* `CompactCore.Io.V4.recoverFilePrefix_encodeJsonl` — **recovery keeps every row group before the
  damage** and invents none.
-/

import CompactCore.Io.V4.File
import CompactCore.Reference

set_option relaxedAutoImplicit false
set_option autoImplicit false

namespace CompactCore.Io.V4

open Wire CompactError Format Format.V4 Io.V3

/-! ### Where row groups end -/

/-- Where a row group ends in the file. -/
def endOffset (entry : RowGroupIndexEntry) : ℕ :=
  entry.rowGroupOffset.toNat + entry.rowGroupLen.toNat

/-- Where row groups that follow the header end in the file. -/
def endOfEntries (entries : List RowGroupIndexEntry) : ℕ :=
  (entries.getLast?.map endOffset).getD fileHeaderLen

section

variable [Crc32Fast]

theorem endOffset_entry {group : RowGroup} {offset : ℕ}
    (hword : offset + group.bytes.length < 2 ^ 64) :
    endOffset (group.entry offset) = offset + group.bytes.length := by
  rw [endOffset, RowGroup.toNat_rowGroupOffset hword, RowGroup.toNat_rowGroupLen hword]

/-- The row groups of a log end where the log ends. -/
theorem endOfEntries_indexEntries {groups : List RowGroup}
    (hword : fileHeaderLen + (rowGroupLog.flat groups).length < 2 ^ 64) :
    endOfEntries (indexEntries fileHeaderLen groups) =
      fileHeaderLen + (rowGroupLog.flat groups).length := by
  induction groups using List.reverseRecOn with
  | nil => rfl
  | append_singleton groups group _ =>
      rw [LogFormat.flat_append, LogFormat.flat_singleton, List.length_append,
        ← Nat.add_assoc] at hword ⊢
      rw [indexEntries_append, indexEntries, indexEntries, endOfEntries, List.getLast?_concat,
        Option.map_some, Option.getD_some]
      exact endOffset_entry hword

/-- Row groups end behind the offset they start from. -/
theorem le_endOffset {groups : List RowGroup} {offset : ℕ}
    (hword : offset + (rowGroupLog.flat groups).length < 2 ^ 64) {entry : RowGroupIndexEntry}
    (hentry : entry ∈ indexEntries offset groups) : offset ≤ endOffset entry := by
  induction groups generalizing offset with
  | nil => cases hentry
  | cons group groups ih =>
      rw [LogFormat.flat_cons, List.length_append] at hword
      rw [show rowGroupLog.bytes group = group.bytes from rfl] at hword
      rcases List.mem_cons.1 hentry with rfl | hmem
      · rw [endOffset_entry (by omega)]
        omega
      · have := ih (by omega) hmem
        omega

/-- The row groups that end before a cut. -/
theorem filter_indexEntries {before after : List RowGroup} {offset n : ℕ}
    (hword : offset + (rowGroupLog.flat (before ++ after)).length < 2 ^ 64)
    (hfits : offset + (rowGroupLog.flat before).length ≤ n)
    (hcut : ∀ group rest, after = group :: rest →
      n < offset + (rowGroupLog.flat before).length + group.bytes.length) :
    (indexEntries offset (before ++ after)).filter (fun entry => endOffset entry ≤ n) =
      indexEntries offset before := by
  induction before generalizing offset with
  | nil =>
      rw [LogFormat.flat_nil, List.length_nil, Nat.add_zero] at hfits hcut
      rw [List.nil_append] at hword ⊢
      rw [indexEntries, List.filter_eq_nil_iff]
      intro entry hentry hle
      have hle := of_decide_eq_true hle
      -- the first row group is cut off, and every other one ends behind it
      cases after with
      | nil => cases hentry
      | cons group rest =>
          have hlt := hcut group rest rfl
          rw [LogFormat.flat_cons, List.length_append] at hword
          rw [show rowGroupLog.bytes group = group.bytes from rfl] at hword
          rcases List.mem_cons.1 hentry with rfl | hmem
          · rw [endOffset_entry (by omega)] at hle
            omega
          · have := le_endOffset (by omega) hmem
            omega
  | cons group before ih =>
      rw [LogFormat.flat_cons, List.length_append] at hfits hcut
      rw [List.cons_append, LogFormat.flat_cons, List.length_append] at hword
      rw [show rowGroupLog.bytes group = group.bytes from rfl] at hfits hcut hword
      have hend : endOffset (group.entry offset) ≤ n := by
        rw [endOffset_entry (by omega)]
        omega
      rw [List.cons_append, indexEntries, indexEntries,
        List.filter_cons_of_pos (by simpa using hend)]
      rw [ih (by omega) (by omega)]
      intro g rest h
      have := hcut g rest h
      omega

/-! ### Footers are not row groups -/

/-- **A footer is not a row group.**  Behind `N` row groups the scanner looks for row group `N`.
The footer would spell its index and its first row only if `N` had the magic in its high half, and
no file holds so many row groups. -/
theorem not_at_footer {data : List UInt8} {c : ℕ} {groups : List RowGroup} {group : RowGroup}
    {total count : UInt64} (hat : At data c (le64 total ++ le64 count))
    (htotal : total.toNat = groupRows groups) (hcount : count.toNat = groups.length)
    (hlt : groups.length < 2 ^ 61) (haccepts : rowGroupLog.Accepts groups group) :
    ¬At data c group.bytes := by
  intro hgroup
  obtain ⟨hmagic, hindex, hfirst, -⟩ := RowGroup.at_body.1 (RowGroup.at_bytes.1 hgroup).1
  rw [← List.take_append_drop 4 (le64 group.firstRowIndex), at_append] at hfirst
  have hwindow : At data c (rowGroupMagic ++ (le64 group.index ++
      (le64 group.firstRowIndex).take 4)) := by
    rw [at_append, at_append, length_le64]
    exact ⟨hmagic, hindex, hfirst.1⟩
  have heq := congrArg leNat (hat.eq_of_length hwindow (by simp [rowGroupMagic]))
  rw [leNat_append, leNat_append, leNat_append, leNat_le64, leNat_le64, leNat_le64, length_le64,
    length_le64, htotal, hcount, haccepts.2.1] at heq
  have hrest := leNat_lt ((le64 group.firstRowIndex).take 4)
  have hlow : ((le64 group.firstRowIndex).take 4).length = 4 := by simp
  -- the low half of the first row index is the low half of the row count
  have hsplit := congrArg leNat (List.take_append_drop 4 (le64 group.firstRowIndex))
  rw [leNat_append, hlow, leNat_le64, haccepts.2.2, ← htotal] at hsplit
  rw [hlow] at hrest
  have hm : leNat rowGroupMagic = 0x34424752 := by decide
  have htlt := total.toNat_lt
  rw [← htotal, hm, show rowGroupMagic.length = 4 from rfl] at heq
  omega

/-- A row group takes more than eight bytes. -/
theorem length_flat_ge (groups : List RowGroup) :
    8 * groups.length ≤ (rowGroupLog.flat groups).length := by
  induction groups with
  | nil => exact Nat.zero_le _
  | cons group groups ih =>
      have hlen : (rowGroupLog.bytes group).length = group.body.length + checksumLen :=
        group.length_bytes
      have hbody := group.length_body
      rw [LogFormat.flat_cons, List.length_cons, List.length_append, hlen, hbody]
      omega

/-- **A log with its footer behind it is complete.** -/
theorem complete_of_index {data footer : List UInt8} {groups : List RowGroup} (hfit : Fits data)
    (hlog : rowGroupLog.Holds data fileHeaderLen groups) (hrows : groupRows groups < 2 ^ 64)
    (hfooter : encodeIndex (indexOf groups) = .ok footer)
    (hat : At data (fileHeaderLen + (rowGroupLog.flat groups).length) footer) :
    rowGroupLog.Complete data fileHeaderLen groups := by
  refine ⟨hlog, fun group haccepts => ?_⟩
  simp only [encodeIndex, bind_ok, tryU64_ok, pure_ok] at hfooter
  obtain ⟨count, hcount, parts, -, rfl⟩ := hfooter
  have hlt : groups.length < 2 ^ 61 := by
    have hle := hlog.le
    have hflat := length_flat_ge groups
    rw [Fits, wordSize] at hfit
    omega
  rw [← List.append_assoc] at hat
  refine not_at_footer (at_append.1 hat).1 ?_ ?_ hlt haccepts
  · rw [indexOf, toNat_ofNat hrows]
  · rw [hcount, indexOf, length_indexEntries]

/-! ### Recovering what the writer wrote -/

/-- The log of a file of the writer is complete. -/
theorem Written.complete {file : List UInt8} {columns : List ColumnSchema}
    {parts : List (List Map)} {groups : List RowGroup} (h : Written file columns parts groups)
    (hfit : Fits file) : rowGroupLog.Complete file fileHeaderLen groups := by
  obtain ⟨trailer, hfile⟩ := h.footer
  obtain ⟨-, -, footer, hfooter, -, -, rfl⟩ := appendFooter_ok.1 hfile
  refine complete_of_index hfit (h.holds.append_right _) h.rows_lt hfooter ?_
  have hat := at_mid (encodeEmptyHeader ++ rowGroupLog.flat groups) footer (encodeTrailer trailer)
  rwa [List.length_append, show encodeEmptyHeader.length = fileHeaderLen from rfl,
    List.append_assoc] at hat

/-- **Recovery keeps every row group before the damage and invents none.**  Of a file of the writer,
whatever bytes follow the first row groups, these are recovered first; and of a file that is cut
off, the row groups are recovered that end before the cut. -/
theorem recoverFilePrefix_encodeJsonl [SerdeJson] {input : String} {schema : Schema}
    {options : EncodeOptions} {file : List UInt8}
    (hcolumns : schema.columns.length ≤ maxCollectionEntries) (hfit : Fits file)
    (h : encodeJsonl input schema options = .ok file) :
    ∃ body index trailer, appendFooter body index = .ok (file, trailer) ∧
      (index.WithinLimits → decodeFooter file = .ok index) ∧
      (index.rowGroups.length < 2 ^ 32 →
        (∀ k ≤ index.rowGroups.length, ∀ tail recovery,
          Fits (file.take (endOfEntries (index.rowGroups.take k)) ++ tail) →
          recoverFilePrefix (file.take (endOfEntries (index.rowGroups.take k)) ++ tail) =
            .ok recovery →
          recovery.footer.rowGroups.take k = index.rowGroups.take k) ∧
        ∀ n, fileHeaderLen ≤ n → n ≤ file.length →
          ∃ recovery, recoverFilePrefix (file.take n) = .ok recovery ∧
            recovery.footer.rowGroups =
              index.rowGroups.filter (fun entry => endOffset entry ≤ n) ∧
            recovery.validBodyLen.toNat = endOfEntries recovery.footer.rowGroups ∧
            recovery.footer.totalRowCount.toNat = rowSum recovery.footer.rowGroups) := by
  obtain ⟨rows, groups, hschema, hsize, hrows, hwritten⟩ := encodeJsonl_ok hcolumns h
  obtain ⟨trailer, hfile⟩ := hwritten.footer
  refine ⟨_, indexOf groups, trailer, hfile,
    fun hwithin => (decodeFooter_ok hfit).2 ⟨hwithin, _, trailer, hfile⟩, ?_⟩
  intro hlt
  rw [show (indexOf groups).rowGroups = indexEntries fileHeaderLen groups from rfl,
    length_indexEntries] at hlt ⊢
  have hcomplete := hwritten.complete hfit
  have hlog := hcomplete.1
  have hword : fileHeaderLen + (rowGroupLog.flat groups).length < 2 ^ 64 :=
    lt_of_le_of_lt hlog.le hfit
  have hheader : HasHeader file := by
    obtain ⟨-, -, footer, -, -, -, rfl⟩ := appendFooter_ok.1 hfile
    rw [List.append_assoc]
    exact at_mid [] encodeEmptyHeader _
  constructor
  · intro k hk tail recovery hfit' hrec
    have hsplit := List.take_append_drop k groups
    have htake : (indexEntries fileHeaderLen groups).take k =
        indexEntries fileHeaderLen (groups.take k) := by
      conv_lhs => rw [← hsplit, indexEntries_append]
      exact List.take_left' (by rw [length_indexEntries, List.length_take, Nat.min_eq_left hk])
    have hpre : rowGroupLog.Holds file fileHeaderLen (groups.take k) := by
      rw [← hsplit] at hlog
      exact hlog.of_append
    have hword' : fileHeaderLen + (rowGroupLog.flat (groups.take k)).length < 2 ^ 64 :=
      lt_of_le_of_lt hpre.le hfit
    rw [htake] at hfit' hrec ⊢
    rw [endOfEntries_indexEntries hword'] at hfit' hrec
    obtain ⟨-, groups', hcomplete', -, rfl⟩ := (recoverFilePrefix_ok hfit').1 hrec
    have hkept := ((LogFormat.holds_take hpre.le).2 ⟨hpre, le_refl _⟩).append_right tail
    obtain ⟨rest, rfl⟩ := hkept.isPrefix_complete hcomplete'
    rw [show (recoveryOf _ (groups.take k ++ rest)).footer.rowGroups =
      indexEntries fileHeaderLen (groups.take k ++ rest) from rfl, indexEntries_append]
    exact List.take_left' (by rw [length_indexEntries, List.length_take, Nat.min_eq_left hk])
  · intro n hn hle
    obtain ⟨before, after, rfl, hfits, hcut⟩ := LogFormat.exists_cut rowGroupLog groups hn
    have hcut' := hcomplete.take hle hfits hcut
    have hfit' : Fits (file.take n) := by
      rw [Fits, List.length_take]
      rw [Fits] at hfit
      omega
    have hheader' : HasHeader (file.take n) := At.take hheader (by
      rw [Nat.zero_add]
      exact hn)
    have hgood : groupRows before < 2 ^ 64 := by
      have hrows := hwritten.rows_lt
      rw [groupRows_append] at hrows
      omega
    have hword' : fileHeaderLen + (rowGroupLog.flat before).length < 2 ^ 64 := by
      rw [Fits, wordSize] at hfit
      omega
    refine ⟨_, (recoverFilePrefix_complete hfit' hheader' hcut').1 hgood, ?_, ?_, ?_⟩
    · exact (filter_indexEntries hword hfits hcut).symm
    · exact (toNat_ofNat hword').trans (endOfEntries_indexEntries hword').symm
    · exact (toNat_ofNat hgood).trans (rowSum_indexEntries _ _).symm

end

open scoped CompactCore.Reference

set_option maxRecDepth 8192 in
/-- A file of two row groups, cut off anywhere. -/
theorem recoverFilePrefix_encodeJsonl_two_rows : ∃ file body index trailer,
    encodeJsonl Reference.idLines (Reference.idSchema .auto) ⟨1⟩ = .ok file ∧
      appendFooter body index = .ok (file, trailer) ∧ decodeFooter file = .ok index ∧
      index.rowGroups.length = 2 ∧ ∀ n, fileHeaderLen ≤ n → n ≤ file.length →
        ∃ recovery, recoverFilePrefix (file.take n) = .ok recovery ∧
          recovery.footer.rowGroups =
            index.rowGroups.filter (fun entry => endOffset entry ≤ n) := by
  obtain ⟨file, hencode, hfit, hlen, hread⟩ := Reference.exists_ok
    (x := encodeJsonl Reference.idLines (Reference.idSchema .auto) ⟨1⟩)
    (fun file => Fits file ∧ file.length ≤ maxCollectionEntries ∧
      (decodeFooter file).toOption.any fun index => index.rowGroups.length = 2) (by decide +kernel)
  obtain ⟨index', hfooter, hgroups⟩ := Reference.exists_ok _ hread
  obtain ⟨body, index, trailer, hfile, hdecode, hrecover⟩ :=
    recoverFilePrefix_encodeJsonl (by decide) hfit hencode
  have hwithin : index.WithinLimits := by
    obtain ⟨-, -, footer, hindex, -, -, hsplit⟩ := appendFooter_ok.1 hfile
    rw [hsplit, List.length_append, List.length_append] at hlen
    exact withinLimits_of_length hindex (by omega)
  obtain rfl : index = index' := Except.ok.inj ((hdecode hwithin).symm.trans hfooter)
  refine ⟨file, body, index, trailer, hencode, hfile, hfooter, hgroups, fun n hn hle => ?_⟩
  obtain ⟨recovery, hrec, hentries, -⟩ := (hrecover (by omega)).2 n hn hle
  exact ⟨recovery, hrec, hentries⟩

end CompactCore.Io.V4
