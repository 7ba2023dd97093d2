/-
**When recovery fails.**

Recovery is meant to report a damaged tail instead of failing.  It does fail, on readable input:
both scanners add up what the records say of themselves, and leave with an error when a sum
overflows.

Main results:

* `CompactCore.Storage.recovery_ok_iff` — **recovery fails precisely on overflowing sums**;
* `CompactCore.Storage.recovery_overflows` — records with valid checksums on which it fails.
-/

import CompactCore.Io.V4.File
import CompactCore.Reference
import CompactCore.Streaming.Append

set_option relaxedAutoImplicit false
set_option autoImplicit false

namespace CompactCore.Storage

open Wire

section

variable [Crc32Fast] {data : List UInt8}

/-- Recovery sets the tail flag when it leaves bytes behind. -/
theorem tail_of_recoverAppendStream {r : Streaming.AppendRecovery} (hfit : Fits data)
    (h : Streaming.recoverAppendStream data = .ok r) :
    r.truncatedOrCorruptTail = true ↔ r.validLen.toNat < data.length := by
  rcases (Streaming.recoverAppendStream_ok hfit).1 h with ⟨rfl, rfl⟩ | ⟨hne, -, rfl⟩ |
    ⟨-, blocks, hlog, -, -, rfl⟩
  · simp
  · have hpos := List.length_pos_of_ne_nil hne
    exact ⟨fun _ => hpos, fun _ => rfl⟩
  · have hend : (UInt64.ofNat (Streaming.streamEnd blocks)).toNat = Streaming.streamEnd blocks :=
      toNat_ofNat (lt_of_le_of_lt hlog.1.le hfit)
    simp [Streaming.appendRecoveryOf, hend]

/-- **Recovery fails precisely on overflowing sums**: a stream is recovered, and a damaged tail
reported, unless the rows or the raw sizes of the blocks that can be read add up to more than a word
holds; and so is a file, unless its rows do. -/
theorem recovery_ok_iff (hfit : Fits data) :
    ((∃ r, Streaming.recoverAppendStream data = .ok r ∧
        (r.truncatedOrCorruptTail = true ↔ r.validLen.toNat < data.length)) ↔
      ∀ blocks, At data 0 Streaming.writeStreamHeader →
        Streaming.appendLog.Complete data Streaming.streamHeaderLen blocks →
        Streaming.blockRows blocks < 2 ^ 64 ∧ Streaming.blockRaw blocks < 2 ^ 64) ∧
      (Io.V4.HasHeader data →
        ((∃ r, Io.V4.recoverFilePrefix data = .ok r) ↔
          ∀ groups, Io.V4.rowGroupLog.Complete data Format.fileHeaderLen groups →
            Io.V4.groupRows groups < 2 ^ 64)) := by
  constructor
  · constructor
    · intro h blocks hheader hlog
      obtain ⟨r, hr, -⟩ := h
      by_contra hbad
      obtain ⟨e, he⟩ := (Streaming.recoverAppendStream_complete hfit hheader hlog).2 hbad
      rw [hr] at he
      cases he
    · intro h
      obtain ⟨r, hr⟩ : ∃ r, Streaming.recoverAppendStream data = .ok r := by
        by_cases hheader : At data 0 Streaming.writeStreamHeader
        · obtain ⟨blocks, hlog⟩ :=
            LogFormat.exists_complete (F := Streaming.appendLog) (Streaming.header_le hheader)
          exact ⟨_, (Streaming.recoverAppendStream_complete hfit hheader hlog).1
            (h blocks hheader hlog)⟩
        · by_cases hnil : data = []
          · exact ⟨_, (Streaming.recoverAppendStream_ok hfit).2 (Or.inl ⟨hnil, rfl⟩)⟩
          · exact ⟨_, Streaming.recoverAppendStream_corrupt hnil hheader⟩
      exact ⟨r, hr, tail_of_recoverAppendStream hfit hr⟩
  · intro hheader
    constructor
    · intro h groups hlog
      obtain ⟨r, hr⟩ := h
      by_contra hbad
      obtain ⟨e, he⟩ := (Io.V4.recoverFilePrefix_complete hfit hheader hlog).2 hbad
      rw [hr] at he
      cases he
    · intro h
      obtain ⟨groups, hlog⟩ := LogFormat.exists_complete (F := Io.V4.rowGroupLog) hheader.le
      exact ⟨_, (Io.V4.recoverFilePrefix_complete hfit hheader hlog).1 (h groups hlog)⟩

end

open scoped CompactCore.Reference

/-- A stream of two blocks, whose row counts add up to `2 ^ 64`. -/
def overflowingStream : List UInt8 :=
  Streaming.writeStreamHeader ++
    (Streaming.Block.frame ⟨0, 0, 0xffffffffffffffff, 0, []⟩ ++
      Streaming.Block.frame ⟨1, 0xffffffffffffffff, 1, 0, []⟩)

/-- A row group without columns. -/
def emptyRowGroup (index firstRowIndex rowCount : UInt64) : List UInt8 :=
  let body := Io.V4.rowGroupHeader index firstRowIndex rowCount 0 0
  body ++ le32 (checksum body)

/-- A file of two row groups, whose row counts add up to `2 ^ 64`. -/
def overflowingFile : List UInt8 :=
  Format.V4.encodeEmptyHeader ++
    (emptyRowGroup 0 0 0xffffffffffffffff ++ emptyRowGroup 1 0xffffffffffffffff 1)

/-- Recovery fails on records with valid checksums, behind a header that can be read. -/
theorem recovery_overflows :
    Streaming.recoverAppendStream overflowingStream =
        .error (.invalidInput "append row count overflow") ∧
      Io.V4.HasHeader overflowingFile ∧
      Io.V4.recoverFilePrefix overflowingFile =
        .error (.invalidInput "cmp4 total row count overflow") := by
  decide +kernel

/-- The blocks that can be read of such a stream have overflowing sums. -/
theorem recovery_ok_iff_overflowing : ∃ blocks,
    Streaming.appendLog.Complete overflowingStream Streaming.streamHeaderLen blocks ∧
      ¬(Streaming.blockRows blocks < 2 ^ 64 ∧ Streaming.blockRaw blocks < 2 ^ 64) := by
  by_contra hnone
  have hfit : Fits overflowingStream := by decide +kernel
  obtain ⟨r, hr, -⟩ := (recovery_ok_iff hfit).1.2 fun blocks _ hlog => by
    by_contra hbad
    exact hnone ⟨blocks, hlog, hbad⟩
  have hfail : ∃ e, Streaming.recoverAppendStream overflowingStream = .error e :=
    ⟨.invalidInput "append row count overflow", by decide +kernel⟩
  exact exists_error_iff.1 hfail r hr

end CompactCore.Storage
