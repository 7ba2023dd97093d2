/-
**Storage compatibility and validation.**

This module is the entry point for tools that must look at a file before they choose a reader for
its version.  Detection trusts the magic and the version byte alone; validation hands the file over
to the decoder that owns the format.

Main definitions:

* `CompactCore.Storage.StorageFormat`, `CompactCore.Storage.CompatibilityPolicy`,
  `CompactCore.Storage.ValidationReport`;
* `CompactCore.Storage.detect`, `CompactCore.Storage.negotiate`, `CompactCore.Storage.validate` —
  the operations.

Main results:

* `CompactCore.Storage.detect_ok` — **detection reads the first five bytes**;
* `CompactCore.Storage.validate_stream`, `CompactCore.Storage.validate_file` — what validation
  reports of a stream, and of a file with a footer.
-/

import CompactCore.Framing
import CompactCore.Io.V3.Inspect
import CompactCore.Io.V4.File
import CompactCore.Streaming.Inspect

set_option relaxedAutoImplicit false
set_option autoImplicit false

namespace CompactCore.Storage

open Wire CompactError

/-! ### Formats -/

/-- A storage format understood by this release. -/
inductive StorageFormat
  | v1
  | v2
  | v3
  | v4
  deriving DecidableEq, Repr

namespace StorageFormat

/-- The version byte persisted after the four-byte file magic. -/
def version : StorageFormat → UInt8
  | v1 => versionV1
  | v2 => versionV2
  | v3 => versionV3
  | v4 => versionV4

def magic : StorageFormat → List UInt8
  | v1 => magicV1
  | v2 => magicV2
  | v3 => magicV3
  | v4 => magicV4

/-- The formats are declared in the order of their versions. -/
instance : LE StorageFormat := ⟨fun format other => format.version ≤ other.version⟩

instance (format other : StorageFormat) : Decidable (format ≤ other) :=
  inferInstanceAs (Decidable (format.version ≤ other.version))

theorem length_magic (format : StorageFormat) : format.magic.length = 4 := by
  cases format <;> rfl

end StorageFormat

/-- Inclusive reader-version range used during compatibility negotiation. -/
structure CompatibilityPolicy where
  minimum : StorageFormat
  maximum : StorageFormat
  deriving DecidableEq, Repr

namespace CompatibilityPolicy

/-- Construct a checked inclusive range. -/
def new (minimum maximum : StorageFormat) : Result CompatibilityPolicy := do
  failIf (¬minimum ≤ maximum) (invalidInput "minimum storage version exceeds maximum")
  return ⟨minimum, maximum⟩

/-- Whether this reader policy accepts a format. -/
def supports (self : CompatibilityPolicy) (format : StorageFormat) : Bool :=
  self.minimum ≤ format ∧ format ≤ self.maximum

instance : Inhabited CompatibilityPolicy := ⟨⟨.v1, .v4⟩⟩

end CompatibilityPolicy

/-- Summary returned after a complete schema-independent structural validation. -/
structure ValidationReport where
  format : StorageFormat
  fileSize : UInt64
  storageUnits : UInt64
  totalRows : Option UInt64
  hasFooterIndex : Option Bool
  deriving DecidableEq, Repr

/-! ### Detecting and validating -/

/-- The format that a magic names. -/
def formatOfMagic (magic : List UInt8) : Result StorageFormat :=
  if magic = magicV1 then .ok .v1
  else if magic = magicV2 then .ok .v2
  else if magic = magicV3 then .ok .v3
  else if magic = magicV4 then .ok .v4
  else .error (invalidInput "unknown storage magic")

/-- Detect a known storage format and verify that its persisted version matches its magic. -/
def detect (data : List UInt8) : Result StorageFormat := do
  failIf (data.length < 4) (invalidInput "storage header is truncated")
  let magic := data.take 4
  let version ← okOr (invalidInput "storage version is truncated") data[4]?
  let format ← formatOfMagic magic
  failIf (version ≠ format.version) (unsupported "storage magic/version combination")
  return format

/-- Detect a file and reject it when the reader's declared range cannot handle that format. -/
def negotiate (data : List UInt8) (policy : CompatibilityPolicy) : Result StorageFormat := do
  let format ← detect data
  failIf (policy.supports format = false)
    (unsupported "storage version is outside reader compatibility range")
  return format

section

variable [Crc32Fast]

/-- The storage units of a file, its rows and whether it has a footer, as its format has them. -/
def validateAs (data : List UInt8) :
    StorageFormat → Result (UInt64 × Option UInt64 × Option Bool)
  | .v1 => do
      let _ ← Framing.decodeV1 data
      return (1, none, none)
  | .v2 => do
      let inspect ← Streaming.inspectJsonlStream data
      let blocks ← tryU64 inspect.blocks.length "block count is too large"
      return (blocks, some inspect.totalRows, some inspect.footerIndex.isSome)
  | .v3 => do
      let inspect ← Io.V3.inspectJsonl data
      return (1, some inspect.rowCount, none)
  | .v4 => do
      let footer ← Io.V4.validateFile data
      let rowGroups ← tryU64 footer.rowGroups.length "row group count is too large"
      return (rowGroups, some footer.totalRowCount, some true)

/-- Validate all schema-independent structure and checksums in a supported file. -/
def validate (data : List UInt8) : Result ValidationReport := do
  let format ← negotiate data default
  let fileSize ← tryU64 data.length "storage file is too large"
  let (storageUnits, totalRows, hasFooterIndex) ← validateAs data format
  return ⟨format, fileSize, storageUnits, totalRows, hasFooterIndex⟩

end

/-! ### Detection is exact -/

theorem formatOfMagic_ok {magic : List UInt8} {format : StorageFormat} :
    formatOfMagic magic = .ok format ↔ magic = format.magic := by
  unfold formatOfMagic
  constructor
  · intro h
    iterate 4
      rcases ite_ok.1 h with ⟨hid, rfl⟩ | ⟨-, h⟩
      · exact hid
    cases h
  · intro h
    subst h
    cases format <;> rfl

/-- **Detection reads the first five bytes**: the magic of a format, and its version. -/
theorem detect_ok {data : List UInt8} {format : StorageFormat} :
    detect data = .ok format ↔ At data 0 (format.magic ++ [format.version]) := by
  have hmagic := format.length_magic
  simp only [detect, bind_ok, failIf_ok, not_not, okOr_ok, formatOfMagic_ok, pure_ok, not_lt,
    at_append, hmagic, Nat.zero_add]
  constructor
  · intro h
    obtain ⟨_, hlen, version, hversion, format, hformat, _, rfl, rfl⟩ := h
    obtain ⟨hlt, hget⟩ := List.getElem?_eq_some_iff.1 hversion
    have hslice : (data.drop 0).take 4 = format.magic := hformat
    refine ⟨at_of_slice (by rw [hmagic]; omega) hslice, at_of_getD (by omega) ?_⟩
    rw [List.getD_eq_getElem?_getD, hversion, Option.getD_some]
  · intro h
    obtain ⟨h₀, h₄⟩ := h
    have hle := h₄.le
    rw [List.length_singleton] at hle
    have hslice := h₀.slice
    rw [hmagic] at hslice
    refine ⟨(), by omega, format.version, ?_, format, hslice, (), rfl, rfl⟩
    have hget := h₄.getD
    rw [List.getD_eq_getElem?_getD, List.getElem?_eq_getElem (by omega), Option.getD_some] at hget
    rw [List.getElem?_eq_getElem (by omega), hget]

/-- The default policy accepts every format. -/
theorem negotiate_default (data : List UInt8) : negotiate data default = detect data := by
  have hsupports : ∀ format, CompatibilityPolicy.supports default format = true := by
    intro format
    cases format <;> decide
  rw [negotiate]
  cases detect data with
  | error e => rfl
  | ok format => simp [bind, Except.bind, failIf, hsupports, pure, Except.pure]

theorem detect_stream {data : List UInt8} (h : At data 0 Streaming.writeStreamHeader) :
    detect data = .ok .v2 := by
  rw [Streaming.writeStreamHeader, ← List.append_assoc] at h
  exact detect_ok.2 (at_append.1 h).1

theorem detect_file {data : List UInt8} (h : Io.V4.HasHeader data) : detect data = .ok .v4 := by
  have hheader : At data 0 ((magicV4 ++ [versionV4]) ++ ([0] ++ le32 0)) := h
  exact detect_ok.2 (at_append.1 hheader).1

section

variable [Crc32Fast]

/-- What validation reports of a stream. -/
theorem validate_stream {data : List UInt8} {report : Streaming.StreamInspect} (hfit : Fits data)
    (hdetect : detect data = .ok .v2) (h : Streaming.inspectJsonlStream data = .ok report)
    (hcount : report.blocks.length < 2 ^ 64) :
    validate data = .ok ⟨.v2, UInt64.ofNat data.length, UInt64.ofNat report.blocks.length,
      some report.totalRows, some report.footerIndex.isSome⟩ := by
  simp only [validate, negotiate_default, hdetect, validateAs, h, bind_ok, Except.ok.injEq,
    exists_eq_left', tryU64_ok, pure_ok, Prod.exists]
  exact ⟨_, toNat_ofNat hfit, _, _, _, ⟨_, toNat_ofNat hcount, rfl⟩, rfl⟩

/-- What validation reports of a file with a footer. -/
theorem validate_file {data : List UInt8} {footer : Format.V4.FooterIndex} (hfit : Fits data)
    (hdetect : detect data = .ok .v4) (h : Io.V4.validateFile data = .ok footer)
    (hcount : footer.rowGroups.length < 2 ^ 64) :
    validate data = .ok ⟨.v4, UInt64.ofNat data.length, UInt64.ofNat footer.rowGroups.length,
      some footer.totalRowCount, some true⟩ := by
  simp only [validate, negotiate_default, hdetect, validateAs, h, bind_ok, Except.ok.injEq,
    exists_eq_left', tryU64_ok, pure_ok, Prod.exists]
  exact ⟨_, toNat_ofNat hfit, _, _, _, ⟨_, toNat_ofNat hcount, rfl⟩, rfl⟩

end

end CompactCore.Storage
