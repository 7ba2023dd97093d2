/-
**Copy-on-write repair of recoverable files.**

A plan says what a repair will do to a file before a byte is written, and is bound to the length and
the digest of the file it was made for.  Executing a plan keeps the recoverable prefix of the file
and writes a footer behind it.  The scanner that recovers the prefix and the validator that judges
the result are different code: what the one accepts is a log of blocks or row groups, and a log with
its footer behind it is what the other accepts.

Main definitions:

* `CompactCore.Storage.Repair.plan`, `CompactCore.Storage.Repair.execute` — the operations;
* `CompactCore.Storage.Repair.Repaired` — what a repair should do.

Main results:

* `CompactCore.Storage.Repair.plan_planned` — what is planned;
* `CompactCore.Storage.Repair.plan_repaired` — **repair is correct and idempotent**.
-/

import CompactCore.Io.V4.Rebuild
import CompactCore.Storage
import CompactCore.Streaming.Append
import CompactCore.Reference

set_option relaxedAutoImplicit false
set_option autoImplicit false

namespace CompactCore.Storage.Repair

open Wire CompactError

/-! ### Plans -/

/-- The exact mutation a repair operation will apply to a new output buffer. -/
inductive RepairAction
  | none
  | rebuildFooter
  | truncateTailAndRebuildFooter
  deriving DecidableEq, Repr

/-- Immutable repair decision produced before output bytes are written. -/
structure RepairPlan where
  format : StorageFormat
  action : RepairAction
  sourceLen : UInt64
  sourceChecksum : UInt32
  sourceDigest : List UInt8
  recoverableLen : UInt64
  discardedBytes : UInt64
  recoveredUnits : UInt64
  recoveredRows : UInt64
  deriving DecidableEq, Repr

def noOpPlan (format : StorageFormat) (sourceLen : UInt64) (sourceChecksum : UInt32)
    (sourceDigest : List UInt8) (recoveredUnits : ℕ) (recoveredRows : UInt64) :
    Result RepairPlan := do
  let recoveredUnits ← tryU64 recoveredUnits "storage unit count is too large"
  return {
    format := format
    action := .none
    sourceLen := sourceLen
    sourceChecksum := sourceChecksum
    sourceDigest := sourceDigest
    recoverableLen := sourceLen
    discardedBytes := 0
    recoveredUnits := recoveredUnits
    recoveredRows := recoveredRows }

def repairPlan (format : StorageFormat) (sourceLen : UInt64) (sourceChecksum : UInt32)
    (sourceDigest : List UInt8) (recoverableLen : UInt64) (recoveredUnits : ℕ)
    (recoveredRows : UInt64) : Result RepairPlan := do
  let discardedBytes ← okOr (invalidInput "repair length underflow")
    (checkedSub sourceLen recoverableLen)
  let recoveredUnits ← tryU64 recoveredUnits "storage unit count is too large"
  return {
    format := format
    action := if discardedBytes = 0 then .rebuildFooter else .truncateTailAndRebuildFooter
    sourceLen := sourceLen
    sourceChecksum := sourceChecksum
    sourceDigest := sourceDigest
    recoverableLen := recoverableLen
    discardedBytes := discardedBytes
    recoveredUnits := recoveredUnits
    recoveredRows := recoveredRows }

section

variable [Crc32Fast]

/-- The report on a stream that has a footer. -/
def sealedInspect (data : List UInt8) : Option Streaming.StreamInspect :=
  (Streaming.inspectJsonlStream data).toOption.filter (·.footerIndex.isSome)

def planCmp2 (data : List UInt8) (sourceLen : UInt64) (sourceChecksum : UInt32)
    (sourceDigest : List UInt8) : Result RepairPlan :=
  match sealedInspect data with
  | some inspect =>
      noOpPlan .v2 sourceLen sourceChecksum sourceDigest inspect.blocks.length inspect.totalRows
  | none => do
      let recovery ← Streaming.recoverAppendStream data
      failIf (recovery.validLen < 10) (invalidInput "cmp2 header is not recoverable")
      repairPlan .v2 sourceLen sourceChecksum sourceDigest recovery.validLen recovery.blocks.length
        recovery.totalRows

def planCmp4 (data : List UInt8) (sourceLen : UInt64) (sourceChecksum : UInt32)
    (sourceDigest : List UInt8) : Result RepairPlan :=
  match Io.V4.validateFile data with
  | .ok footer =>
      noOpPlan .v4 sourceLen sourceChecksum sourceDigest footer.rowGroups.length
        footer.totalRowCount
  | .error _ => do
      let recovery ← Io.V4.recoverFilePrefix data
      repairPlan .v4 sourceLen sourceChecksum sourceDigest recovery.validBodyLen
        recovery.footer.rowGroups.length recovery.footer.totalRowCount

/-- The plan for a file, as its format has it. -/
def planAs (data : List UInt8) (sourceLen : UInt64) (sourceChecksum : UInt32)
    (sourceDigest : List UInt8) : StorageFormat → Result RepairPlan
  | .v2 => planCmp2 data sourceLen sourceChecksum sourceDigest
  | .v4 => planCmp4 data sourceLen sourceChecksum sourceDigest
  | .v1 => .error (unsupported "repair supports cmp2 and cmp4 files")
  | .v3 => .error (unsupported "repair supports cmp2 and cmp4 files")

variable [Blake3]

/-- Inspect a file and return the repair operation without changing any bytes. -/
def plan (data : List UInt8) : Result RepairPlan := do
  let format ← detect data
  let sourceLen ← tryU64 data.length "repair source is too large"
  let sourceChecksum := checksum32 data
  let sourceDigest := Blake3.hash data
  planAs data sourceLen sourceChecksum sourceDigest format

/-! ### Executing -/

/-- Repair a stream: the recovered prefix, and an index of its blocks. -/
def executeCmp2 (data : List UInt8) (plan : RepairPlan) : Result (List UInt8) := do
  let recovery ← Streaming.recoverAppendStream data
  failIf (recovery.validLen ≠ plan.recoverableLen ∨ recovery.totalRows ≠ plan.recoveredRows ∨
      UInt64.ofNat recovery.blocks.length ≠ plan.recoveredUnits)
    (invalidInput "repair recovery no longer matches plan")
  let prefixLen ← tryUsize plan.recoverableLen "repair prefix is too large"
  let footer ← Streaming.writeIndexFooter recovery.blocks
  let output := data.take prefixLen ++ footer
  let inspect ← Streaming.inspectJsonlStream output
  failIf (inspect.footerIndex.isNone) (invalidInput "repaired cmp2 footer is missing")
  return output

/-- Repair a file: the recovered prefix, and an index of its row groups. -/
def executeCmp4 (data : List UInt8) (plan : RepairPlan) : Result (List UInt8) := do
  let recovery ← Io.V4.recoverFilePrefix data
  failIf (recovery.validBodyLen ≠ plan.recoverableLen ∨
      recovery.footer.totalRowCount ≠ plan.recoveredRows ∨
      UInt64.ofNat recovery.footer.rowGroups.length ≠ plan.recoveredUnits)
    (invalidInput "repair recovery no longer matches plan")
  let prefixLen ← tryUsize plan.recoverableLen "repair prefix is too large"
  let (output, _) ← Format.V4.appendFooter (data.take prefixLen) recovery.footer
  let _ ← Io.V4.validateFile output
  return output

/-- The repair of a file, as its format has it. -/
def executeAs (data : List UInt8) (plan : RepairPlan) : StorageFormat → Result (List UInt8)
  | .v2 => executeCmp2 data plan
  | .v4 => executeCmp4 data plan
  | .v1 => .error (unsupported "repair supports cmp2 and cmp4 files")
  | .v3 => .error (unsupported "repair supports cmp2 and cmp4 files")

/-- Execute a previously reviewed plan into a new byte buffer. -/
def execute (data : List UInt8) (plan : RepairPlan) : Result (List UInt8) := do
  let sourceLen ← tryU64 data.length "repair source is too large"
  failIf (sourceLen ≠ plan.sourceLen ∨ Blake3.hash data ≠ plan.sourceDigest)
    (invalidInput "repair source does not match plan")
  let format ← detect data
  failIf (format ≠ plan.format) (invalidInput "repair source format does not match plan")
  if plan.action = .none then return data
  else executeAs data plan plan.format

/-! ### What is planned -/

/-- A plan for a file: how much of it is kept, and what that holds. -/
def planOf (data : List UInt8) (format : StorageFormat) (action : RepairAction)
    (recoverableLen units : ℕ) (rows : UInt64) : RepairPlan where
  format := format
  action := action
  sourceLen := UInt64.ofNat data.length
  sourceChecksum := checksum32 data
  sourceDigest := Blake3.hash data
  recoverableLen := UInt64.ofNat recoverableLen
  discardedBytes := UInt64.ofNat (data.length - recoverableLen)
  recoveredUnits := UInt64.ofNat units
  recoveredRows := rows

/-- What has to be done to a file that is kept up to a length. -/
def actionOf (data : List UInt8) (recoverableLen : ℕ) : RepairAction :=
  if recoverableLen = data.length then .rebuildFooter else .truncateTailAndRebuildFooter

variable {data : List UInt8} {p : RepairPlan}

theorem noOpPlan_ok {format : StorageFormat} {units : ℕ} {rows : UInt64} :
    noOpPlan format (UInt64.ofNat data.length) (checksum32 data) (Blake3.hash data) units rows =
        .ok p ↔
      units < 2 ^ 64 ∧ p = planOf data format .none data.length units rows := by
  simp only [noOpPlan, bind_ok, tryU64_ok, pure_ok, planOf, Nat.sub_self]
  constructor
  · intro h
    obtain ⟨count, hcount, rfl⟩ := h
    exact ⟨hcount ▸ count.toNat_lt, by rw [eq_ofNat hcount]; rfl⟩
  · intro h
    exact ⟨_, toNat_ofNat h.1, h.2.symm⟩

theorem repairPlan_ok {format : StorageFormat} {len units : ℕ} {rows : UInt64} (hfit : Fits data)
    (hlen : len ≤ data.length) :
    repairPlan format (UInt64.ofNat data.length) (checksum32 data) (Blake3.hash data)
        (UInt64.ofNat len) units rows = .ok p ↔
      units < 2 ^ 64 ∧ p = planOf data format (actionOf data len) len units rows := by
  have hdata : (UInt64.ofNat data.length).toNat = data.length := toNat_ofNat hfit
  have hkept : (UInt64.ofNat len).toNat = len := toNat_ofNat (lt_of_le_of_lt hlen hfit)
  have hrest : (UInt64.ofNat (data.length - len)).toNat = data.length - len :=
    toNat_ofNat (lt_of_le_of_lt (Nat.sub_le ..) hfit)
  have haction : (UInt64.ofNat (data.length - len) = 0) ↔ len = data.length := by
    rw [← UInt64.toNat_inj, hrest, UInt64.toNat_zero]
    omega
  simp only [repairPlan, bind_ok, okOr_ok, checkedSub_eq_some, tryU64_ok, pure_ok, hdata, hkept]
  constructor
  · intro h
    obtain ⟨discarded, hdiscarded, count, hcount, rfl⟩ := h
    have hdisc : discarded = UInt64.ofNat (data.length - len) := eq_ofNat (by omega)
    refine ⟨hcount ▸ count.toNat_lt, ?_⟩
    rw [eq_ofNat hcount, hdisc]
    simp only [haction]
    rfl
  · intro h
    obtain ⟨hunits, rfl⟩ := h
    refine ⟨_, by rw [hrest]; omega, _, toNat_ofNat hunits, ?_⟩
    simp only [haction]
    rfl

/-- What is planned: nothing for a file with a footer, and else to keep what is recovered. -/
inductive Planned (data : List UInt8) : RepairPlan → Prop
  | sealedStream {inspect : Streaming.StreamInspect} : detect data = .ok .v2 →
      Streaming.inspectJsonlStream data = .ok inspect → inspect.blocks.length < 2 ^ 64 →
      Planned data (planOf data .v2 .none data.length inspect.blocks.length inspect.totalRows)
  | stream {blocks : List Streaming.Block} : At data 0 Streaming.writeStreamHeader →
      Streaming.appendLog.Complete data Streaming.streamHeaderLen blocks →
      Streaming.blockRows blocks < 2 ^ 64 → Streaming.blockRaw blocks < 2 ^ 64 →
      Planned data (planOf data .v2 (actionOf data (Streaming.streamEnd blocks))
        (Streaming.streamEnd blocks) blocks.length (UInt64.ofNat (Streaming.blockRows blocks)))
  | validFile {footer : Format.V4.FooterIndex} : detect data = .ok .v4 →
      Io.V4.validateFile data = .ok footer → footer.rowGroups.length < 2 ^ 64 →
      Planned data (planOf data .v4 .none data.length footer.rowGroups.length footer.totalRowCount)
  | file {groups : List Io.V4.RowGroup} : Io.V4.HasHeader data →
      Io.V4.rowGroupLog.Complete data Format.fileHeaderLen groups →
      Io.V4.groupRows groups < 2 ^ 64 →
      Planned data (planOf data .v4
        (actionOf data (Format.fileHeaderLen + (Io.V4.rowGroupLog.flat groups).length))
        (Format.fileHeaderLen + (Io.V4.rowGroupLog.flat groups).length) groups.length
        (UInt64.ofNat (Io.V4.groupRows groups)))

theorem plan_detected {format : StorageFormat} (hfit : Fits data)
    (hdetect : detect data = .ok format) : plan data =
      planAs data (UInt64.ofNat data.length) (checksum32 data) (Blake3.hash data) format := by
  have hlen : data.length < 2 ^ 64 := hfit
  rw [plan, hdetect, tryU64, if_pos hlen]
  rfl

omit [Blake3] in
theorem sealedInspect_eq_some {inspect : Streaming.StreamInspect} :
    sealedInspect data = some inspect ↔
      Streaming.inspectJsonlStream data = .ok inspect ∧ inspect.footerIndex.isSome = true := by
  rw [sealedInspect, Option.filter_eq_some_iff, toOption_eq_some]

theorem planCmp2_planned (hfit : Fits data) (hdetect : detect data = .ok .v2)
    (h : planCmp2 data (UInt64.ofNat data.length) (checksum32 data) (Blake3.hash data) = .ok p) :
    Planned data p := by
  unfold planCmp2 at h
  split at h
  · rename_i inspect hsealed
    obtain ⟨hcount, rfl⟩ := noOpPlan_ok.1 h
    exact .sealedStream hdetect (sealedInspect_eq_some.1 hsealed).1 hcount
  · simp only [bind_ok, failIf_ok] at h
    obtain ⟨recovery, hrec, _, hlen, hplan⟩ := h
    -- a prefix of ten bytes has a header
    rcases (Streaming.recoverAppendStream_ok hfit).1 hrec with ⟨-, rfl⟩ | ⟨-, -, rfl⟩ |
      ⟨hheader, blocks, hlog, hrows, hraw, rfl⟩
    · exact absurd hlen (by decide)
    · exact absurd hlen (by decide)
    · obtain ⟨-, rfl⟩ := (repairPlan_ok hfit hlog.1.le).1 hplan
      rw [show (Streaming.appendRecoveryOf data blocks).blocks =
        Streaming.metadataFrom Streaming.streamHeaderLen blocks from rfl,
        Streaming.length_metadataFrom]
      exact .stream hheader hlog hrows hraw

theorem planCmp4_planned (hfit : Fits data) (hdetect : detect data = .ok .v4)
    (h : planCmp4 data (UInt64.ofNat data.length) (checksum32 data) (Blake3.hash data) = .ok p) :
    Planned data p := by
  unfold planCmp4 at h
  split at h
  · rename_i footer hvalid
    obtain ⟨hcount, rfl⟩ := noOpPlan_ok.1 h
    exact .validFile hdetect hvalid hcount
  · simp only [bind_ok] at h
    obtain ⟨recovery, hrec, hplan⟩ := h
    obtain ⟨hheader, groups, hlog, hrows, rfl⟩ := (Io.V4.recoverFilePrefix_ok hfit).1 hrec
    obtain ⟨-, rfl⟩ := (repairPlan_ok hfit hlog.1.le).1 hplan
    rw [show (Io.V4.recoveryOf data groups).footer.rowGroups =
      Io.V4.indexEntries Format.fileHeaderLen groups from rfl, Io.V4.length_indexEntries]
    exact .file hheader hlog hrows

/-- **What is planned.** -/
theorem plan_planned (hfit : Fits data) (h : plan data = .ok p) : Planned data p := by
  have hdetected := h
  simp only [plan, bind_ok] at hdetected
  obtain ⟨format, hdetect, -⟩ := hdetected
  rw [plan_detected hfit hdetect] at h
  cases format with
  | v1 => cases h
  | v2 => exact planCmp2_planned hfit hdetect h
  | v3 => cases h
  | v4 => exact planCmp4_planned hfit hdetect h

/-! ### Files that are kept -/

/-- Nothing is planned for a stream with a footer. -/
theorem plan_sealed {inspect : Streaming.StreamInspect} (hfit : Fits data)
    (hdetect : detect data = .ok .v2) (h : Streaming.inspectJsonlStream data = .ok inspect)
    (hsealed : inspect.footerIndex.isSome = true) (hcount : inspect.blocks.length < 2 ^ 64) :
    plan data =
      .ok (planOf data .v2 .none data.length inspect.blocks.length inspect.totalRows) := by
  rw [plan_detected hfit hdetect]
  simp only [planAs, planCmp2, sealedInspect_eq_some.2 ⟨h, hsealed⟩]
  exact noOpPlan_ok.2 ⟨hcount, rfl⟩

/-- Nothing is planned for a valid file. -/
theorem plan_valid {footer : Format.V4.FooterIndex} (hfit : Fits data)
    (hdetect : detect data = .ok .v4) (h : Io.V4.validateFile data = .ok footer)
    (hcount : footer.rowGroups.length < 2 ^ 64) :
    plan data =
      .ok (planOf data .v4 .none data.length footer.rowGroups.length footer.totalRowCount) := by
  rw [plan_detected hfit hdetect]
  simp only [planAs, planCmp4, h]
  exact noOpPlan_ok.2 ⟨hcount, rfl⟩

/-- A plan passes the checks on the file that it was made for. -/
theorem execute_planOf {format : StorageFormat} {action : RepairAction} {len units : ℕ}
    {rows : UInt64} (hfit : Fits data) (hdetect : detect data = .ok format) :
    execute data (planOf data format action len units rows) =
      if action = .none then .ok data
      else executeAs data (planOf data format action len units rows) format := by
  have hlen : data.length < 2 ^ 64 := hfit
  rw [execute, tryU64, if_pos hlen, hdetect]
  simp only [bind, Except.bind, failIf, planOf, ne_eq, not_true, or_self, if_false]
  rfl

/-! ### Files that are repaired -/

omit [Blake3] in
/-- The recovered prefix of a stream, with an index behind it, is a sealed stream. -/
theorem stream_rebuilt {blocks : List Streaming.Block} (hdata : data.length < 2 ^ 63)
    (hheader : At data 0 Streaming.writeStreamHeader)
    (hlog : Streaming.appendLog.Complete data Streaming.streamHeaderLen blocks) :
    Streaming.Stream (data.take (Streaming.streamEnd blocks) ++ Streaming.footerOf blocks true)
        blocks true ∧
      Fits (data.take (Streaming.streamEnd blocks) ++ Streaming.footerOf blocks true) := by
  obtain ⟨hholds, hcount⟩ := LogFormat.capped_holds.1 hlog.1
  have hmax : maxStreamBlocks * Streaming.indexEntryLen < 2 ^ 62 := by decide
  have hbound : blocks.length * Streaming.indexEntryLen ≤
      maxStreamBlocks * Streaming.indexEntryLen := Nat.mul_le_mul_right _ hcount
  constructor
  · refine ⟨hholds.1, ?_, fun _ => hcount⟩
    rw [Streaming.take_streamEnd hheader hholds, List.append_assoc]
  · rw [Fits, List.length_append, List.length_take, wordSize, Streaming.footerOf, if_pos rfl,
      Streaming.length_indexFooter, Streaming.length_metadataFrom]
    omega

/-- The footer that a repair builds. -/
inductive RebuiltFooter (data : List UInt8) : StorageFormat → List UInt8 → Prop
  | stream {recovery : Streaming.AppendRecovery} {footer : List UInt8} :
      Streaming.recoverAppendStream data = .ok recovery →
      Streaming.writeIndexFooter recovery.blocks = .ok footer → RebuiltFooter data .v2 footer
  | file {recovery : Io.V4.FileRecovery} {footer : List UInt8} {trailer : Format.V4.FooterTrailer} :
      Io.V4.recoverFilePrefix data = .ok recovery →
      Format.V4.appendFooter (data.take recovery.validBodyLen.toNat) recovery.footer =
        .ok (data.take recovery.validBodyLen.toNat ++ footer, trailer) →
      RebuiltFooter data .v4 footer

/-- What a repair should do: the file that it writes is the source, if nothing is to be done, and
else the recoverable prefix of the source with a rebuilt footer behind it; it is valid, holds what
was recovered, and is repaired by leaving it as it is. -/
structure Repaired (data : List UInt8) (p : RepairPlan) (out : List UInt8) : Prop where
  executed : execute data p = .ok out
  kept : p.action = .none → out = data
  rebuilt : p.action ≠ .none → ∃ footer, RebuiltFooter data p.format footer ∧
    out = data.take p.recoverableLen.toNat ++ footer
  valid : ∃ report, validate out = .ok report ∧ report.storageUnits = p.recoveredUnits ∧
    report.totalRows = some p.recoveredRows
  discarded : p.recoverableLen.toNat + p.discardedBytes.toNat = data.length
  again : ∃ q, plan out = .ok q ∧ q.action = .none ∧ q.recoveredUnits = p.recoveredUnits ∧
    q.recoveredRows = p.recoveredRows ∧ execute out q = .ok out

theorem planOf_discarded {format : StorageFormat} {action : RepairAction} {len units : ℕ}
    {rows : UInt64} (hfit : Fits data) (hlen : len ≤ data.length) :
    (planOf data format action len units rows).recoverableLen.toNat = len ∧
      (planOf data format action len units rows).recoverableLen.toNat +
        (planOf data format action len units rows).discardedBytes.toNat = data.length := by
  have hkept : (UInt64.ofNat len).toNat = len := toNat_ofNat (lt_of_le_of_lt hlen hfit)
  have hrest : (UInt64.ofNat (data.length - len)).toNat = data.length - len :=
    toNat_ofNat (lt_of_le_of_lt (Nat.sub_le ..) hfit)
  simp only [planOf, hkept, hrest, Nat.add_sub_cancel' hlen, and_self]

/-- A file for which nothing is planned is repaired. -/
theorem repaired_none {format : StorageFormat} {units : ℕ} {rows : UInt64}
    {report : ValidationReport} (hfit : Fits data) (hdetect : detect data = .ok format)
    (hplan : plan data = .ok (planOf data format .none data.length units rows))
    (hvalid : validate data = .ok report) (hunits : report.storageUnits = UInt64.ofNat units)
    (hrows : report.totalRows = some rows) :
    Repaired data (planOf data format .none data.length units rows) data where
  executed := execute_planOf hfit hdetect
  kept _ := rfl
  rebuilt h := absurd rfl h
  valid := ⟨report, hvalid, hunits, hrows⟩
  discarded := (planOf_discarded hfit (le_refl _)).2
  again := ⟨_, hplan, rfl, rfl, rfl, execute_planOf hfit hdetect⟩

omit [Crc32Fast] [Blake3] in
theorem actionOf_ne_none {len : ℕ} : actionOf data len ≠ .none := by
  unfold actionOf
  split <;> simp

/-- A file that is rebuilt to one for which nothing is planned is repaired. -/
theorem repaired_rebuilt {out footer : List UInt8} {format : StorageFormat} {len units : ℕ}
    {rows : UInt64} (hfit : Fits data) (hlen : len ≤ data.length)
    (hexecuted : execute data (planOf data format (actionOf data len) len units rows) = .ok out)
    (hfooter : RebuiltFooter data format footer) (hout : out = data.take len ++ footer)
    (hagain : Repaired out (planOf out format .none out.length units rows) out)
    (hplan : plan out = .ok (planOf out format .none out.length units rows)) :
    Repaired data (planOf data format (actionOf data len) len units rows) out where
  executed := hexecuted
  kept h := absurd h actionOf_ne_none
  rebuilt _ := ⟨footer, hfooter, by rw [(planOf_discarded hfit hlen).1, hout]⟩
  valid := hagain.valid
  discarded := (planOf_discarded hfit hlen).2
  again := ⟨_, hplan, rfl, rfl, rfl, hagain.executed⟩

/-- A stream is repaired by the recovered prefix, with an index behind it. -/
theorem repaired_stream {blocks : List Streaming.Block} (hdata : data.length < 2 ^ 63)
    (hheader : At data 0 Streaming.writeStreamHeader)
    (hlog : Streaming.appendLog.Complete data Streaming.streamHeaderLen blocks)
    (hrows : Streaming.blockRows blocks < 2 ^ 64) (hraw : Streaming.blockRaw blocks < 2 ^ 64) :
    Repaired data (planOf data .v2 (actionOf data (Streaming.streamEnd blocks))
        (Streaming.streamEnd blocks) blocks.length (UInt64.ofNat (Streaming.blockRows blocks)))
      (data.take (Streaming.streamEnd blocks) ++ Streaming.footerOf blocks true) := by
  have hfit : Fits data := lt_trans hdata (by decide)
  have hend : Streaming.streamEnd blocks ≤ data.length := hlog.1.le
  obtain ⟨hstream, hfit'⟩ := stream_rebuilt hdata hheader hlog
  have hinspect := (Streaming.inspectJsonlStream_ok hfit').2
    ⟨blocks, true, hstream, hrows, hraw, rfl⟩
  have hcount : blocks.length < 2 ^ 64 := lt_of_le_of_lt (hstream.length_le rfl) (by decide)
  have hlen : (Streaming.inspectOf blocks true).blocks.length = blocks.length :=
    Streaming.length_metadataFrom _ _
  have hdetect := detect_stream hstream.header
  have hrec := (Streaming.recoverAppendStream_complete hfit hheader hlog).1 ⟨hrows, hraw⟩
  have hfooter : Streaming.writeIndexFooter (Streaming.appendRecoveryOf data blocks).blocks =
      .ok (Streaming.footerOf blocks true) :=
    Streaming.writeIndexFooter_ok.2 ⟨by rw [← hlen] at hcount; exact hcount, rfl⟩
  have hplan := plan_sealed hfit' hdetect hinspect rfl (by rwa [hlen])
  have hvalid := validate_stream hfit' hdetect hinspect (by rwa [hlen])
  rw [hlen] at hplan hvalid
  refine repaired_rebuilt hfit hend ?_ (.stream hrec hfooter) rfl
    (repaired_none hfit' hdetect hplan hvalid rfl rfl) hplan
  have hkept : (UInt64.ofNat (Streaming.streamEnd blocks)).toNat = Streaming.streamEnd blocks :=
    toNat_ofNat (lt_of_le_of_lt hend hfit)
  have hunits : (Streaming.appendRecoveryOf data blocks).blocks.length = blocks.length :=
    Streaming.length_metadataFrom _ _
  rw [execute_planOf hfit (detect_stream hheader), if_neg actionOf_ne_none]
  simp only [executeAs, executeCmp2, hrec, bind_ok, Except.ok.injEq, exists_eq_left', failIf_ok,
    hunits, tryUsize_eq, planOf, hkept, hfooter, hinspect, pure_ok]
  exact ⟨(), by simp [Streaming.appendRecoveryOf], (), by simp [Streaming.inspectOf], trivial⟩

/-- A file is repaired by the recovered prefix, with a footer behind it. -/
theorem repaired_file {groups : List Io.V4.RowGroup} (hdata : data.length < 2 ^ 63)
    (hheader : Io.V4.HasHeader data)
    (hlog : Io.V4.rowGroupLog.Complete data Format.fileHeaderLen groups)
    (hrows : Io.V4.groupRows groups < 2 ^ 64) (hcount : groups.length ≤ maxCollectionEntries) :
    ∃ out, Repaired data (planOf data .v4
        (actionOf data (Format.fileHeaderLen + (Io.V4.rowGroupLog.flat groups).length))
        (Format.fileHeaderLen + (Io.V4.rowGroupLog.flat groups).length) groups.length
        (UInt64.ofNat (Io.V4.groupRows groups))) out := by
  have hfit : Fits data := lt_trans hdata (by decide)
  have hend : Format.fileHeaderLen + (Io.V4.rowGroupLog.flat groups).length ≤ data.length :=
    hlog.1.le
  obtain ⟨out, trailer, hfile, hfit'⟩ := Io.V4.exists_appendFooter hdata hlog.1 hcount hrows
  have hvalidate := Io.V4.validateFile_rebuilt hfit' hheader hlog.1 hcount hfile
  obtain ⟨-, -, footer, -, -, -, rfl⟩ := Format.V4.appendFooter_ok.1 hfile
  have hlen : (Io.V4.indexOf groups).rowGroups.length = groups.length :=
    Io.V4.length_indexEntries _ _
  have hword : (Io.V4.indexOf groups).rowGroups.length < 2 ^ 64 := by
    rw [hlen]
    exact lt_of_le_of_lt hcount (by decide)
  have hheader' : Io.V4.HasHeader
      (data.take (Format.fileHeaderLen + (Io.V4.rowGroupLog.flat groups).length)) :=
    At.take hheader (by
      rw [Nat.zero_add]
      exact Nat.le_add_right _ _)
  have hdetect := detect_file
    (At.append_right hheader' (footer ++ Format.V4.encodeTrailer trailer))
  have hrec := (Io.V4.recoverFilePrefix_complete hfit hheader hlog).1 hrows
  have hkept :
      (UInt64.ofNat (Format.fileHeaderLen + (Io.V4.rowGroupLog.flat groups).length)).toNat =
      Format.fileHeaderLen + (Io.V4.rowGroupLog.flat groups).length :=
    toNat_ofNat (lt_of_le_of_lt hend hfit)
  have hplan := plan_valid hfit' hdetect hvalidate hword
  have hvalid := validate_file hfit' hdetect hvalidate hword
  rw [hlen] at hplan hvalid
  have hfooter : RebuiltFooter data .v4 (footer ++ Format.V4.encodeTrailer trailer) := by
    refine @RebuiltFooter.file _ data _ _ trailer hrec ?_
    rw [show (Io.V4.recoveryOf data groups).validBodyLen =
      UInt64.ofNat (Format.fileHeaderLen + (Io.V4.rowGroupLog.flat groups).length) from rfl, hkept]
    exact hfile
  refine ⟨_, repaired_rebuilt hfit hend ?_ hfooter rfl
    (repaired_none hfit' hdetect hplan hvalid rfl rfl) hplan⟩
  rw [execute_planOf hfit (detect_file hheader), if_neg actionOf_ne_none]
  have hunits : (Io.V4.recoveryOf data groups).footer.rowGroups.length = groups.length := hlen
  have hindex : (Io.V4.recoveryOf data groups).footer = Io.V4.indexOf groups := rfl
  simp only [executeAs, executeCmp4, hrec, bind_ok, Except.ok.injEq, exists_eq_left', failIf_ok,
    hunits, tryUsize_eq, planOf, hkept, Prod.exists]
  rw [hindex]
  exact ⟨(), by simp [Io.V4.recoveryOf, Io.V4.indexOf], _, trailer, hfile, _, hvalidate, rfl⟩

/-- **Repair is correct and idempotent.**  No byte slice is longer than half the address space. -/
theorem plan_repaired (hdata : data.length < 2 ^ 63) (h : plan data = .ok p)
    (hunits : p.recoveredUnits.toNat ≤ maxCollectionEntries) : ∃ out, Repaired data p out := by
  have hfit : Fits data := lt_trans hdata (by decide)
  cases plan_planned hfit h with
  | sealedStream hdetect hinspect hcount =>
      exact ⟨data, repaired_none hfit hdetect h (validate_stream hfit hdetect hinspect hcount) rfl
        rfl⟩
  | stream hheader hlog hrows hraw =>
      exact ⟨_, repaired_stream hdata hheader hlog hrows hraw⟩
  | validFile hdetect hvalid hcount =>
      exact ⟨data, repaired_none hfit hdetect h (validate_file hfit hdetect hvalid hcount) rfl rfl⟩
  | @file groups hheader hlog hrows =>
      have hcount : groups.length < 2 ^ 64 := by
        have hle := LogFormat.length_le_flat hlog.1.1
        have hend := hlog.1.le
        rw [Fits, wordSize] at hfit
        omega
      rw [show (planOf data .v4 _ _ groups.length _).recoveredUnits = UInt64.ofNat groups.length
        from rfl, toNat_ofNat hcount] at hunits
      exact repaired_file hdata hheader hlog hrows hunits

end

open scoped CompactCore.Reference

/-- A stream of one block, with a damaged tail. -/
theorem plan_repaired_one_block : ∃ p out,
    plan (Streaming.writeStreamHeader ++
      (Streaming.Block.frame ⟨0, 0, 7, 0, []⟩ ++ magicV1)) = .ok p ∧
      p.action = .truncateTailAndRebuildFooter ∧
      Repaired (Streaming.writeStreamHeader ++ (Streaming.Block.frame ⟨0, 0, 7, 0, []⟩ ++ magicV1))
        p out := by
  obtain ⟨p, hplan, haction, hunits⟩ := Reference.exists_ok
    (x := plan (Streaming.writeStreamHeader ++ (Streaming.Block.frame ⟨0, 0, 7, 0, []⟩ ++ magicV1)))
    (fun p => p.action = .truncateTailAndRebuildFooter ∧
      p.recoveredUnits.toNat ≤ maxCollectionEntries) (by decide +kernel)
  obtain ⟨out, hout⟩ := plan_repaired (by decide +kernel) hplan hunits
  exact ⟨p, out, hplan, haction, hout⟩

end CompactCore.Storage.Repair
