/-
**Rebuilding the footer of a `CMP4` file.**

What recovery accepts has a footer: every entry of its index can be written, and the file with the
footer behind it passes the strict checks.

Main results:

* `CompactCore.Io.V4.exists_appendFooter` — the footer of a log can be written;
* `CompactCore.Io.V4.validateFile_rebuilt` — **a recovered prefix with its footer is a valid file**.
-/

import CompactCore.Io.V4.File

set_option relaxedAutoImplicit false
set_option autoImplicit false

namespace CompactCore.Io.V4

open Wire CompactError Format Format.V3 Format.V4 Io.V3 Codecs.V3

/-! ### How long a footer is -/

/-- Writing a list of entries, none longer than `k`. -/
theorem exists_mapM_le {α : Type} {f : α → Result (List UInt8)} {k : ℕ} {entries : List α}
    (h : ∀ entry ∈ entries, ∃ bytes, f entry = .ok bytes ∧ bytes.length ≤ k) :
    ∃ parts, entries.mapM f = .ok parts ∧ parts.flatten.length ≤ entries.length * k := by
  induction entries with
  | nil => exact ⟨[], rfl, by simp⟩
  | cons entry entries ih =>
      obtain ⟨bytes, hbytes, hle⟩ := h entry List.mem_cons_self
      obtain ⟨parts, hparts, hrest⟩ := ih fun e he => h e (List.mem_cons_of_mem _ he)
      refine ⟨bytes :: parts, ?_, ?_⟩
      · simp only [List.mapM_cons, hbytes, hparts, bind_ok, pure_ok, Except.ok.injEq,
          exists_eq_left']
      · rw [List.flatten_cons, List.length_append, List.length_cons, Nat.succ_mul]
        omega

/-- Statistics that can be read are short. -/
theorem length_le_of_decode {data : List UInt8} {statistics : ColumnStatistics}
    (h : Statistics.decode data = .ok statistics) : data.length ≤ 17 := by
  unfold Statistics.decode at h
  split at h
  · cases h
  · rename_i tag rest
    rw [List.length_cons]
    split at h
    · rename_i hnone
      rw [hnone.2, List.length_nil]
      omega
    · split at h
      · rename_i hrange
        omega
      · split at h
        · rename_i hbool
          omega
        · split at h
          · rename_i hstring
            omega
          · cases h

theorem exists_encodeColumnEntry {rowCount : UInt64} {chunk : EncodedColumnChunk}
    (h : ChunkValid rowCount chunk) (offset : ℕ) :
    ∃ bytes, encodeColumnEntry (chunkEntry offset chunk) = .ok bytes ∧ bytes.length ≤ 2 ^ 17 := by
  have hname : (asBytes chunk.metadata.name).length < 2 ^ 16 := by
    have hencodes := h.encodes
    simp only [encodeColumnMetadata, bind_ok, tryU16_ok] at hencodes
    obtain ⟨_, _, nameLen, hlen, _⟩ := hencodes
    rw [← hlen]
    exact nameLen.toNat_lt
  obtain ⟨statistics, hdecode⟩ := h.statistics
  have hstatistics := length_le_of_decode hdecode
  simp only [encodeColumnEntry, chunkEntry, bind_ok, tryU16_ok, tryU32_ok, pure_ok]
  refine ⟨_, ⟨UInt16.ofNat (asBytes chunk.metadata.name).length, ?_,
    UInt32.ofNat chunk.metadata.statisticsMetadata.length, ?_, rfl⟩, ?_⟩
  · rw [UInt16.toNat_ofNat', Nat.mod_eq_of_lt hname]
  · rw [UInt32.toNat_ofNat', Nat.mod_eq_of_lt (by omega)]
  · simp only [List.length_append, length_le16, length_le64, length_le32]
    omega

section

variable [Crc32Fast]

omit [Crc32Fast] in
theorem exists_encodeRowGroupEntry {group : RowGroup} (h : group.WellFormed) (offset : ℕ) :
    ∃ bytes, encodeRowGroupEntry (group.entry offset) = .ok bytes ∧ bytes.length ≤ 2 ^ 38 := by
  have hcolumns : ∀ (chunks : List EncodedColumnChunk) (offset : ℕ),
      (∀ chunk ∈ chunks, ChunkValid group.rowCount chunk) →
      ∀ entry ∈ chunkEntries offset chunks, ∃ bytes, encodeColumnEntry entry = .ok bytes ∧
        bytes.length ≤ 2 ^ 17 := by
    intro chunks
    induction chunks with
    | nil =>
        intro _ _ entry hentry
        cases hentry
    | cons chunk chunks ih =>
        intro offset hchunks entry hentry
        rcases List.mem_cons.1 hentry with rfl | hmem
        · exact exists_encodeColumnEntry (hchunks chunk List.mem_cons_self) offset
        · exact ih _ (fun c hc => hchunks c (List.mem_cons_of_mem _ hc)) entry hmem
  obtain ⟨parts, hparts, hle⟩ := exists_mapM_le (hcolumns group.chunks _ h.chunks)
  have hcount := h.length_le
  have hmax : maxCollectionEntries * 2 ^ 17 < 2 ^ 37 := by decide
  rw [length_chunkEntries] at hle
  have hbound : group.chunks.length * 2 ^ 17 ≤ maxCollectionEntries * 2 ^ 17 :=
    Nat.mul_le_mul_right _ hcount
  simp only [encodeRowGroupEntry, RowGroup.entry, bind_ok, tryU32_ok, pure_ok, length_chunkEntries]
  refine ⟨_, ⟨UInt32.ofNat group.chunks.length, ?_, parts, hparts, rfl⟩, ?_⟩
  · rw [UInt32.toNat_ofNat', Nat.mod_eq_of_lt (lt_of_le_of_lt hcount (by decide))]
  · simp only [List.length_append, length_le64, length_le32]
    omega

/-- The body of the footer of a log. -/
theorem exists_encodeIndex {groups : List RowGroup} (h : rowGroupLog.Chain [] groups)
    (hcount : groups.length ≤ maxCollectionEntries) :
    ∃ footer, encodeIndex (indexOf groups) = .ok footer ∧ footer.length ≤ 2 ^ 59 := by
  have hentries : ∀ (groups done : List RowGroup) (offset : ℕ), rowGroupLog.Chain done groups →
      ∀ entry ∈ indexEntries offset groups, ∃ bytes, encodeRowGroupEntry entry = .ok bytes ∧
        bytes.length ≤ 2 ^ 38 := by
    intro groups
    induction groups with
    | nil =>
        intro _ _ _ entry hentry
        cases hentry
    | cons group groups ih =>
        intro done offset hchain entry hentry
        obtain ⟨⟨hwell, -⟩, hrest⟩ := hchain
        rcases List.mem_cons.1 hentry with rfl | hmem
        · exact exists_encodeRowGroupEntry hwell offset
        · exact ih _ _ hrest entry hmem
  obtain ⟨parts, hparts, hle⟩ := exists_mapM_le (hentries groups [] fileHeaderLen h)
  have hmax : maxCollectionEntries * 2 ^ 38 < 2 ^ 58 := by decide
  rw [length_indexEntries] at hle
  have hbound : groups.length * 2 ^ 38 ≤ maxCollectionEntries * 2 ^ 38 :=
    Nat.mul_le_mul_right _ hcount
  simp only [encodeIndex, indexOf, bind_ok, tryU64_ok, pure_ok, length_indexEntries]
  refine ⟨_, ⟨UInt64.ofNat groups.length,
    toNat_ofNat (lt_of_le_of_lt hcount (by decide)), parts, hparts, rfl⟩, ?_⟩
  simp only [List.length_append, length_le64]
  omega

/-! ### The footer of a log -/

/-- **The footer of a log can be written**: an address space of `2 ^ 63` bytes has room for it. -/
theorem exists_appendFooter {data : List UInt8} {groups : List RowGroup}
    (hdata : data.length < 2 ^ 63) (hlog : rowGroupLog.Holds data fileHeaderLen groups)
    (hcount : groups.length ≤ maxCollectionEntries) (hrows : groupRows groups < 2 ^ 64) :
    ∃ file trailer, appendFooter
        (data.take (fileHeaderLen + (rowGroupLog.flat groups).length)) (indexOf groups) =
      .ok (file, trailer) ∧ Fits file := by
  have hfit : Fits data := lt_trans hdata (by decide)
  have hend := hlog.le
  have hlen := hlog.length_take
  obtain ⟨footer, hfooter, hle⟩ := exists_encodeIndex hlog.1 hcount
  have hoffset : (UInt64.ofNat (fileHeaderLen + (rowGroupLog.flat groups).length)).toNat =
      fileHeaderLen + (rowGroupLog.flat groups).length := toNat_ofNat (by omega)
  refine ⟨_, ⟨UInt64.ofNat (fileHeaderLen + (rowGroupLog.flat groups).length),
    UInt64.ofNat footer.length, checksum32 footer⟩, appendFooter_ok.2 ⟨?_, ?_, footer, hfooter, ?_,
      rfl, rfl⟩, ?_⟩
  · rw [hoffset, hlen]
  · exact validateFooterIndex_indexOf hfit hlog hrows hoffset
  · exact toNat_ofNat (by omega)
  · rw [Fits, List.length_append, List.length_append, length_encodeTrailer, hlen, footerTrailerLen,
      wordSize]
    omega

/-- **A recovered prefix with its footer is a valid file.** -/
theorem validateFile_rebuilt {data file : List UInt8} {groups : List RowGroup}
    {trailer : FooterTrailer} (hfit : Fits file) (hheader : HasHeader data)
    (hlog : rowGroupLog.Holds data fileHeaderLen groups)
    (hcount : groups.length ≤ maxCollectionEntries)
    (hfile : appendFooter (data.take (fileHeaderLen + (rowGroupLog.flat groups).length))
      (indexOf groups) = .ok (file, trailer)) :
    validateFile file = .ok (indexOf groups) := by
  have hend := hlog.le
  have hlen := hlog.length_take
  refine (validateFile_log hfit (hheader.take ?_) ((LogFormat.holds_take hend).2 ⟨hlog, le_refl _⟩)
    hlen (indexOf_withinLimits hlog.1 hcount) hfile).1
  rw [Nat.zero_add]
  exact Nat.le_add_right _ _

end

end CompactCore.Io.V4
