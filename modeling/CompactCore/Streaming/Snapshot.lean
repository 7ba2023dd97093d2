/-
**Checkpoint snapshots.**

A snapshot stores opaque state bytes: an envelope of fixed width around a `CMP1` frame of run-length
coded bytes.  The envelope repeats the length of the state and has a checksum of its own over the
frame, and the decoder checks both.

The decoder of the frame refuses more than `maxDecodedBytes` bytes of output, and the encoder never
asks about that limit.  A state above it is sealed without an error and cannot be read back.

Main definitions:

* `CompactCore.Streaming.encodeSnapshot`, `CompactCore.Streaming.decodeSnapshot` — the two
  directions.

Main results:

* `CompactCore.Streaming.decodeSnapshot_ok` — **the envelope is exact**;
* `CompactCore.Streaming.decodeSnapshot_encodeSnapshot` — a snapshot comes back exactly when its
  state is within the decoder's limit.
-/

import CompactCore.Reference
import CompactCore.Framing

set_option relaxedAutoImplicit false
set_option autoImplicit false

namespace CompactCore.Streaming

open Wire CompactError

/-! ### The envelope -/

/-- `b"SNP1"`. -/
def snapshotMagic : List UInt8 := [0x53, 0x4e, 0x50, 0x31]

def snapshotVersion : UInt8 := 1

def fixedHeaderLen : ℕ := 4 + 1 + 8 + 8 + 8 + 4

/-- Decoded checkpoint snapshot. -/
structure Snapshot where
  checkpointId : UInt64
  state : List UInt8
  deriving DecidableEq, Repr

def snapshotConfig : EncodeConfig where
  valueType := .rawBytes
  transform := .none
  codec := .rle

/-- The fields of a snapshot in the order in which they are written. -/
def snapshotBytes (checkpointId rawLen frameLen : UInt64) (checksum : UInt32)
    (frame : List UInt8) : List UInt8 :=
  snapshotMagic ++ ([snapshotVersion] ++ (le64 checkpointId ++ (le64 rawLen ++ (le64 frameLen ++
    (le32 checksum ++ frame)))))

theorem length_snapshotBytes (checkpointId rawLen frameLen : UInt64) (checksum : UInt32)
    (frame : List UInt8) :
    (snapshotBytes checkpointId rawLen frameLen checksum frame).length =
      fixedHeaderLen + frame.length := by
  simp only [snapshotBytes, snapshotMagic, fixedHeaderLen, List.length_append, List.length_cons,
    List.length_nil, length_le64, length_le32]
  omega

def Snapshot.readExact (err : String) : ℕ → Reader CompactError (List UInt8) :=
  Wire.readExact (invalidInput "snapshot length overflow") (invalidInput err)

/-- The fields after the version byte, the frame included. -/
def Snapshot.readFields : Reader CompactError (UInt64 × UInt64 × UInt32 × List UInt8) := do
  let checkpointId ← readUInt64 (readExact "snapshot checkpoint id is truncated")
  let rawLen ← readUInt64 (readExact "snapshot raw length is truncated")
  let frameLen ← readUInt64 (readExact "snapshot frame length is truncated")
  let expectedChecksum ← readUInt32 (readExact "snapshot checksum is truncated")
  let frameLen ← liftM (tryUsize frameLen "snapshot frame length is too large")
  let frame ← Wire.readExact (invalidInput "snapshot frame length overflow")
    (invalidInput "snapshot frame is truncated") frameLen
  return (checkpointId, rawLen, expectedChecksum, frame)

section

variable [Crc32Fast]

/-- Encode opaque checkpoint state into a checked snapshot payload. -/
def encodeSnapshot (checkpointId : UInt64) (state : List UInt8) : Result (List UInt8) := do
  let frame ← encodeBytesFrame snapshotConfig state
  let frameLen ← tryU64 frame.length "snapshot frame is too large"
  let rawLen ← tryU64 state.length "snapshot state is too large"
  return snapshotBytes checkpointId rawLen frameLen (checksum32 frame) frame

/-- Decode and validate a checkpoint snapshot. -/
def decodeSnapshot (data : List UInt8) : Result Snapshot := do
  failIf (data.length < fixedHeaderLen) (invalidInput "snapshot header is truncated")
  failIf (data.take 4 ≠ snapshotMagic) (invalidInput "snapshot has invalid magic")
  failIf (data.getD 4 0 ≠ snapshotVersion) (unsupported "snapshot version")
  let ((checkpointId, rawLen, expectedChecksum, frame), endOffset) ← Snapshot.readFields data 5
  failIf (endOffset ≠ data.length) (invalidInput "snapshot has trailing bytes")
  failIf (checksum32 frame ≠ expectedChecksum) (invalidInput "snapshot checksum mismatch")
  let state ← decodeBytesFrame snapshotConfig frame
  failIf (UInt64.ofNat state.length ≠ rawLen)
    (invalidInput "snapshot raw length does not match decoded state")
  return ⟨checkpointId, state⟩

end

/-! ### Exactness -/

section

variable {checkpointId : UInt64} {state data : List UInt8}

theorem Snapshot.readFields_ok {rawLen : UInt64} {checksum : UInt32} {frame : List UInt8}
    {c c' : ℕ} (hfit : Fits data) :
    readFields data c = .ok ((checkpointId, rawLen, checksum, frame), c') ↔
      At data c (le64 checkpointId ++ (le64 rawLen ++ (le64 (UInt64.ofNat frame.length) ++
        (le32 checksum ++ frame)))) ∧ c' = c + 28 + frame.length := by
  simp only [readFields, readExact, Reader.bind_ok, readUInt64_ok hfit, readUInt32_ok hfit,
    Reader.lift_ok, tryUsize_eq, Except.ok.injEq, Wire.readExact_ok hfit, Reader.pure_ok,
    Prod.mk.injEq, at_append, length_le64, length_le32]
  constructor
  · rintro ⟨_, _, ⟨h0, rfl⟩, _, _, ⟨h1, rfl⟩, n, _, ⟨h2, rfl⟩, _, _, ⟨h3, rfl⟩, _, _, ⟨rfl, rfl⟩,
      _, _, ⟨h4, hlen, rfl⟩, ⟨rfl, rfl, rfl, rfl⟩, rfl⟩
    rw [hlen, UInt64.ofNat_toNat]
    exact ⟨⟨h0, h1, h2, h3, h4⟩, rfl⟩
  · rintro ⟨⟨h0, h1, h2, h3, h4⟩, rfl⟩
    have hn : (UInt64.ofNat frame.length).toNat = frame.length := by
      have hle := h4.le
      exact toNat_ofNat (lt_of_le_of_lt (by omega) hfit)
    exact ⟨_, _, ⟨h0, rfl⟩, _, _, ⟨h1, rfl⟩, _, _, ⟨h2, rfl⟩, _, _, ⟨h3, rfl⟩, _, _, ⟨rfl, rfl⟩,
      frame, _, ⟨h4, hn.symm, rfl⟩, ⟨rfl, rfl, rfl, rfl⟩, by omega⟩

variable [Crc32Fast]

/-- **The envelope is exact**: a byte string decodes to a snapshot precisely when it is the envelope
of a frame that holds the state. -/
theorem decodeSnapshot_ok {snapshot : Snapshot} (hfit : Fits data) :
    decodeSnapshot data = .ok snapshot ↔
      ∃ frame, decodeBytesFrame snapshotConfig frame = .ok snapshot.state ∧
        data = snapshotBytes snapshot.checkpointId (UInt64.ofNat snapshot.state.length)
          (UInt64.ofNat frame.length) (checksum32 frame) frame := by
  simp only [decodeSnapshot, bind_ok, failIf_ok, not_not, pure_ok, Prod.exists,
    Snapshot.readFields_ok hfit]
  constructor
  · rintro ⟨_, hlen, _, hmagic, _, hversion, id, rawLen, crc, frame, _, ⟨hfields, rfl⟩, _, hend, _,
      rfl, state, hstate, _, rfl, rfl⟩
    rw [fixedHeaderLen] at hlen
    have h0 : At data 0 snapshotMagic := at_of_slice (by show 0 + 4 ≤ _; omega) hmagic
    have h4 : At data 4 [snapshotVersion] := at_of_getD (by omega) hversion
    refine ⟨frame, hstate, At.eq_self ?_ ?_⟩
    · rw [snapshotBytes, at_append, at_append]
      exact ⟨h0, h4, hfields⟩
    · rw [length_snapshotBytes, ← hend, fixedHeaderLen]
  · rintro ⟨frame, hstate, hdata⟩
    have hat : At data 0 (snapshotBytes snapshot.checkpointId
        (UInt64.ofNat snapshot.state.length) (UInt64.ofNat frame.length) (checksum32 frame)
        frame) := by
      rw [← hdata]
      exact at_self data
    have hlen : data.length = fixedHeaderLen + frame.length := by
      rw [hdata, length_snapshotBytes]
    rw [snapshotBytes, at_append, at_append] at hat
    obtain ⟨h0, h4, hfields⟩ := hat
    exact ⟨(), by omega, (), h0.slice, (), h4.getD, snapshot.checkpointId, _, _, frame, _,
      ⟨hfields, rfl⟩, (), hlen.symm, (), rfl, snapshot.state, hstate, (), rfl, rfl⟩

/-! ### What comes back -/

theorem encodeSnapshot_ok :
    encodeSnapshot checkpointId state = .ok data ↔
      ∃ frame, encodeBytesFrame snapshotConfig state = .ok frame ∧ Fits frame ∧ Fits state ∧
        data = snapshotBytes checkpointId (UInt64.ofNat state.length)
          (UInt64.ofNat frame.length) (checksum32 frame) frame := by
  simp only [encodeSnapshot, bind_ok, tryU64_ok, pure_ok]
  constructor
  · rintro ⟨frame, hframe, frameLen, hflen, rawLen, hrlen, rfl⟩
    refine ⟨frame, hframe, ?_, ?_, ?_⟩
    · show frame.length < 2 ^ 64
      exact hflen ▸ frameLen.toNat_lt
    · show state.length < 2 ^ 64
      exact hrlen ▸ rawLen.toNat_lt
    · rw [← hflen, ← hrlen, UInt64.ofNat_toNat, UInt64.ofNat_toNat]
  · rintro ⟨frame, hframe, hflen, hrlen, rfl⟩
    refine ⟨frame, hframe, UInt64.ofNat frame.length, ?_, UInt64.ofNat state.length, ?_, rfl⟩
    · exact toNat_ofNat hflen
    · exact toNat_ofNat hrlen

/-- The frame of a state: its runs behind the header of the frame. -/
theorem length_snapshotFrame_le {frame : List UInt8}
    (h : encodeBytesFrame snapshotConfig state = .ok frame) :
    frame.length ≤ Framing.headerLen + 2 * state.length := by
  have hframe : Framing.encodeV1 .rle (Rle.encodeRle state) = frame := by
    simpa [encodeBytesFrame, snapshotConfig, Codecs.encodeBytes, EncodeConfig.validate] using h
  rw [← hframe, Framing.length_encodeV1]
  exact Nat.add_le_add_left (Rle.length_encodeRle_le state) _

/-- Every state of a size that a machine can hold is sealed. -/
theorem exists_encodeSnapshot (checkpointId : UInt64) (hstate : state.length < 2 ^ 62) :
    ∃ data, encodeSnapshot checkpointId state = .ok data := by
  obtain ⟨frame, hframe⟩ : ∃ frame, encodeBytesFrame snapshotConfig state = .ok frame :=
    ⟨Framing.encodeV1 .rle (Rle.encodeRle state), rfl⟩
  have hlen := length_snapshotFrame_le hframe
  rw [Framing.headerLen] at hlen
  have hfit : Fits frame := by
    show frame.length < 2 ^ 64
    omega
  exact ⟨_, encodeSnapshot_ok.2 ⟨frame, hframe, hfit, by show _ < 2 ^ 64; omega, rfl⟩⟩

/-- The envelope of a state of such a size is addressable. -/
theorem fits_snapshot (h : encodeSnapshot checkpointId state = .ok data)
    (hstate : state.length < 2 ^ 62) : Fits data := by
  obtain ⟨frame, hframe, -, -, rfl⟩ := encodeSnapshot_ok.1 h
  have hlen := length_snapshotFrame_le hframe
  rw [Framing.headerLen] at hlen
  rw [Fits, length_snapshotBytes]
  show 33 + frame.length < 2 ^ 64
  omega

/-- **A snapshot comes back exactly when its state is within the decoder's limit.** -/
theorem decodeSnapshot_encodeSnapshot (h : encodeSnapshot checkpointId state = .ok data) :
    decodeSnapshot data = .ok ⟨checkpointId, state⟩ ↔ state.length ≤ maxDecodedBytes := by
  constructor
  · intro hdecode
    simp only [decodeSnapshot, bind_ok, pure_ok] at hdecode
    obtain ⟨_, -, _, -, _, -, fields, -, _, -, _, -, state', hstate, _, -, heq⟩ := hdecode
    obtain ⟨-, rfl⟩ := Snapshot.mk.inj heq
    exact decodeBytesFrame_length_le hstate
  · intro hmax
    have hdata := fits_snapshot h (lt_of_le_of_lt hmax (by decide))
    obtain ⟨frame, hframe, hfit, hstate, rfl⟩ := encodeSnapshot_ok.1 h
    exact (decodeSnapshot_ok hdata).2
      ⟨frame, decodeBytesFrame_encodeBytesFrame hframe hmax hstate hfit, rfl⟩

/-- A snapshot never comes back as another one: what the decoder returns, if anything, is what was
sealed. -/
theorem decodeSnapshot_sound {snapshot : Snapshot}
    (h : encodeSnapshot checkpointId state = .ok data)
    (hstate : state.length < 2 ^ 62) (hdecode : decodeSnapshot data = .ok snapshot) :
    snapshot = ⟨checkpointId, state⟩ := by
  have hdata := fits_snapshot h hstate
  obtain ⟨frame, hframe, hfit, -, hbytes⟩ := encodeSnapshot_ok.1 h
  obtain ⟨frame', hframe', hbytes'⟩ := (decodeSnapshot_ok hdata).1 hdecode
  -- the fixed fields have fixed widths, so the two envelopes agree field by field
  obtain ⟨hid, rfl⟩ : snapshot.checkpointId = checkpointId ∧ frame' = frame := by
    have heq := hbytes.symm.trans hbytes'
    simp only [snapshotBytes, List.append_cancel_left_eq] at heq
    obtain ⟨hid, heq⟩ := List.append_inj heq (by simp)
    obtain ⟨-, heq⟩ := List.append_inj heq (by simp)
    obtain ⟨-, heq⟩ := List.append_inj heq (by simp)
    obtain ⟨-, heq⟩ := List.append_inj heq (by simp)
    exact ⟨by rw [← u64OfLe_le64 snapshot.checkpointId, ← hid, u64OfLe_le64], heq.symm⟩
  obtain ⟨id, state'⟩ := snapshot
  obtain rfl : id = checkpointId := hid
  have hrle : Framing.encodeV1 .rle (Rle.encodeRle state) = frame' := by
    simpa [encodeBytesFrame, snapshotConfig, Codecs.encodeBytes, EncodeConfig.validate] using hframe
  have hparsed : Framing.decodeV1 _ = .ok ⟨.rle, Rle.encodeRle state⟩ :=
    (Framing.decodeV1_ok hfit).2 hrle.symm
  simp only [decodeBytesFrame, hparsed, Codecs.decodeBytes, snapshotConfig, Rle.decodeRle,
    Rle.decodeRleBounded, bind_ok, pure_ok, Except.ok.injEq] at hframe'
  obtain ⟨_, -, _, rfl, _, -, _, -, _, -, _, -, rfl⟩ := hframe'
  rw [Rle.expand_encodeRle]

end

open scoped CompactCore.Reference

/-- One byte above the limit is sealed without an error, and nothing can be read back. -/
theorem decodeSnapshot_above_limit :
    ∃ data, encodeSnapshot 7 (List.replicate (maxDecodedBytes + 1) 0) = .ok data ∧
      ∃ err, decodeSnapshot data = .error err := by
  have hlen : (List.replicate (maxDecodedBytes + 1) (0 : UInt8)).length = maxDecodedBytes + 1 :=
    List.length_replicate
  have hstate : (List.replicate (maxDecodedBytes + 1) (0 : UInt8)).length < 2 ^ 62 := by
    rw [hlen, maxDecodedBytes]
    omega
  obtain ⟨data, hdata⟩ := exists_encodeSnapshot 7 hstate
  refine ⟨data, hdata, exists_error_iff.2 fun snapshot hdecode => ?_⟩
  obtain rfl := decodeSnapshot_sound hdata hstate hdecode
  have hle := (decodeSnapshot_encodeSnapshot hdata).1 hdecode
  rw [hlen] at hle
  omega

theorem decodeSnapshot_encodeSnapshot_runs :
    ∃ data, encodeSnapshot 7 [97, 97, 97, 98] = .ok data ∧
      (decodeSnapshot data = .ok ⟨7, [97, 97, 97, 98]⟩ ↔ 4 ≤ maxDecodedBytes) := by
  obtain ⟨data, hdata⟩ : ∃ data, encodeSnapshot 7 [97, 97, 97, 98] = .ok data :=
    exists_encodeSnapshot 7 (by decide)
  exact ⟨data, hdata, decodeSnapshot_encodeSnapshot hdata⟩

end CompactCore.Streaming
