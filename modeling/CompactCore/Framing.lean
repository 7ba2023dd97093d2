/-
**The `CMP1` frame.**

A frame is the storage envelope around a codec payload: magic, version, codec id, payload length,
checksum, payload.  The decoder trusts none of the fields, and accepts a byte string exactly when
it is the frame of what it returns.

Main definitions:

* `CompactCore.Framing.encodeV1`, `CompactCore.Framing.decodeV1` — the two directions;
* `CompactCore.encodeBytesFrame`, `CompactCore.decodeBytesFrame` — raw bytes through a codec and a
  frame;
* `CompactCore.encodeU64Frame`, `CompactCore.decodeU64Frame` — the same for numbers.

Main results:

* `CompactCore.Framing.decodeV1_ok` — **framing is exact**;
* `CompactCore.decodeBytesFrame_encodeBytesFrame` — framed bytes come back up to the decoder's
  limit;
* `CompactCore.decodeU64Frame_ok` — framed numbers are canonical.
-/

import CompactCore.Codecs

set_option relaxedAutoImplicit false
set_option autoImplicit false

namespace CompactCore.Framing

open Wire CompactError

/-! ### The envelope -/

def codecToId : Codec → UInt8
  | .rle => 0x01
  | .deltaVarintU64 => 0x02
  | .columnBlock => 0x10
  | .huffman => 0x03
  | .lz77 => 0x04

def idToCodec (id : UInt8) : Result Codec :=
  if id = 0x01 then .ok .rle
  else if id = 0x02 then .ok .deltaVarintU64
  else if id = 0x10 then .ok .columnBlock
  else if id = 0x03 then .ok .huffman
  else if id = 0x04 then .ok .lz77
  else .error (unsupported "codec id")

/-- Parsed frame containing codec metadata and the compressed payload bytes. -/
structure Frame where
  codec : Codec
  payload : List UInt8
  deriving DecidableEq, Repr

def headerLen : ℕ := 18

section

variable [Crc32Fast]

/-- Encode a codec payload into a v1 frame. -/
def encodeV1 (codec : Codec) (payload : List UInt8) : List UInt8 :=
  let payloadLen := UInt64.ofNat payload.length
  let checksum := checksum payload
  magicV1 ++ ([versionV1] ++ ([codecToId codec] ++ (le64 payloadLen ++ (le32 checksum ++ payload))))

/-- Decode and validate a v1 frame. -/
def decodeV1 (data : List UInt8) : Result Frame := do
  failIf (data.length < headerLen) (invalidInput "frame header is truncated")
  failIf (data.take 4 ≠ magicV1) (invalidInput "invalid frame magic")
  let version := data.getD 4 0
  failIf (version ≠ versionV1) (unsupported "frame version")
  let codec ← idToCodec (data.getD 5 0)
  let payloadLen ← tryUsize (u64OfLe ((data.drop 6).take 8)) "frame payload length is too large"
  let expectedChecksum := u32OfLe ((data.drop 14).take 4)
  let payloadEnd ← okOr (invalidInput "frame payload length overflow")
    (usizeAdd headerLen payloadLen)
  failIf (data.length ≠ payloadEnd) (invalidInput "frame payload length does not match input")
  let payload := (data.drop headerLen).take payloadLen
  failIf (¬verify payload expectedChecksum) (invalidInput "frame checksum mismatch")
  return ⟨codec, payload⟩

end

/-! ### Exactness -/

@[simp] theorem idToCodec_ok {id : UInt8} {codec : Codec} :
    idToCodec id = .ok codec ↔ id = codecToId codec := by
  unfold idToCodec
  constructor
  · intro h
    iterate 5
      rcases ite_ok.1 h with ⟨hid, rfl⟩ | ⟨-, h⟩
      · exact hid
    cases h
  · intro h
    subst h
    cases codec <;> rfl

variable [Crc32Fast]

theorem length_encodeV1 (codec : Codec) (payload : List UInt8) :
    (encodeV1 codec payload).length = headerLen + payload.length := by
  simp only [encodeV1, magicV1, headerLen, List.length_append, List.length_cons, List.length_nil,
    length_le64, length_le32]
  omega

/-- The payload of a frame that a machine can address fits as well. -/
theorem fits_payload {codec : Codec} {payload : List UInt8} (h : Fits (encodeV1 codec payload)) :
    Fits payload := by
  rw [Fits, length_encodeV1] at h
  exact lt_of_le_of_lt (Nat.le_add_left ..) h

/-- **Framing is exact**: a byte string decodes to a frame precisely when it is that frame's
encoding. -/
theorem decodeV1_ok {data : List UInt8} {frame : Frame} (hfit : Fits data) :
    decodeV1 data = .ok frame ↔ data = encodeV1 frame.codec frame.payload := by
  simp only [decodeV1, bind_ok, failIf_ok, not_not, idToCodec_ok, tryUsize_eq, okOr_ok,
    usizeAdd_eq_some, verify_eq_true, pure_ok, Except.ok.injEq]
  constructor
  · intro h
    obtain ⟨_, hlen, _, hmagic, _, hversion, codec, hcodec, n, rfl, _, ⟨-, rfl⟩, _, hend, _, hcrc,
      rfl⟩ := h
    rw [headerLen] at hlen hend hcrc
    -- the six fields, each at its offset
    have h0 : At data 0 magicV1 := at_of_slice (by show 0 + 4 ≤ _; omega) hmagic
    have h4 : At data 4 [versionV1] := at_of_getD (by omega) hversion
    have h5 : At data 5 [codecToId codec] := at_of_getD (by omega) hcodec
    have h6 : At data 6 (le64 (u64OfLe ((data.drop 6).take 8))) := by
      rw [le64_u64OfLe (by simp; omega)]
      exact at_take_drop (by omega)
    have h14 : At data 14 (le32 (u32OfLe ((data.drop 14).take 4))) := by
      rw [le32_u32OfLe (by simp; omega)]
      exact at_take_drop (by omega)
    set n := (u64OfLe ((data.drop 6).take 8)).toNat with hn
    have h18 : At data 18 ((data.drop 18).take n) := at_take_drop (by omega)
    have hpayload : ((data.drop 18).take n).length = n := by simp; omega
    show data = encodeV1 codec ((data.drop 18).take n)
    refine At.eq_self ?_ ?_
    · rw [encodeV1, hpayload, hn, UInt64.ofNat_toNat, ← hcrc, at_append, at_append, at_append,
        at_append, at_append]
      exact ⟨h0, h4, h5, h6, h14, h18⟩
    · rw [length_encodeV1, hpayload, headerLen]
      exact hend
  · intro h
    obtain ⟨codec, payload⟩ := frame
    have hlen : data.length = headerLen + payload.length := by rw [h, length_encodeV1]
    have hn : (UInt64.ofNat payload.length).toNat = payload.length := by
      exact toNat_ofNat (lt_of_le_of_lt (by omega) hfit)
    have hat : At data 0 (encodeV1 codec payload) := by
      rw [← h]
      exact at_self data
    rw [encodeV1, at_append, at_append, at_append, at_append, at_append] at hat
    obtain ⟨h0, h4, h5, h6, h14, h18⟩ := hat
    have h6' : (data.drop 6).take 8 = le64 (UInt64.ofNat payload.length) := h6.slice
    have h14' : (data.drop 14).take 4 = le32 (checksum payload) := h14.slice
    have h18' : (data.drop headerLen).take payload.length = payload := h18.slice
    rw [h6', h14', u64OfLe_le64, u32OfLe_le32, hn]
    refine ⟨(), by omega, (), h0.slice, (), h4.getD, codec, h5.getD, _, rfl, _,
      ⟨by rw [← hlen]; exact hfit, rfl⟩, (), hlen, (), ?_, ?_⟩
    · rw [h18']
    · rw [h18']

end CompactCore.Framing

namespace CompactCore

open Wire CompactError

/-! ### Framed bytes -/

variable [Crc32Fast]

/-- Encode raw bytes with the configured byte codec and wrap the result in a v1 frame. -/
def encodeBytesFrame (config : EncodeConfig) (input : List UInt8) : Result (List UInt8) := do
  config.validate
  let payload ← Codecs.encodeBytes config input
  return Framing.encodeV1 config.codec payload

def ensureFrameCodec (config : EncodeConfig) (actual : Codec) : Result Unit :=
  failIf (actual ≠ config.codec) (invalidInput "frame codec does not match requested config")

/-- Decode a v1 frame, validate its codec against `config`, then decode raw bytes. -/
def decodeBytesFrame (config : EncodeConfig) (frame : List UInt8) : Result (List UInt8) := do
  config.validate
  let frame ← Framing.decodeV1 frame
  ensureFrameCodec config frame.codec
  Codecs.decodeBytes config frame.payload

theorem decodeBytesFrame_length_le {config : EncodeConfig} {frame out : List UInt8}
    (h : decodeBytesFrame config frame = .ok out) : out.length ≤ maxDecodedBytes := by
  simp only [decodeBytesFrame, bind_ok] at h
  obtain ⟨_, -, parsed, -, _, -, h⟩ := h
  exact Codecs.decodeBytes_length_le h

/-- **Framed bytes come back**, up to the decoder's limit. -/
theorem decodeBytesFrame_encodeBytesFrame {config : EncodeConfig} {input frame : List UInt8}
    (h : encodeBytesFrame config input = .ok frame) (hmax : input.length ≤ maxDecodedBytes)
    (hinput : Fits input) (hframe : Fits frame) :
    decodeBytesFrame config frame = .ok input := by
  simp only [encodeBytesFrame, bind_ok, pure_ok] at h
  obtain ⟨u, hvalid, payload, hpayload, rfl⟩ := h
  simp only [decodeBytesFrame, ensureFrameCodec, bind_ok, failIf_ok, not_not]
  exact ⟨u, hvalid, ⟨config.codec, payload⟩, (Framing.decodeV1_ok hframe).2 rfl, (), rfl,
    Codecs.decodeBytes_encodeBytes hpayload hmax hinput⟩

/-! ### Framed numbers -/

/-- Encode `u64` values with the configured numeric codec and wrap the result in a v1 frame. -/
def encodeU64Frame (config : EncodeConfig) (values : List UInt64) : Result (List UInt8) := do
  config.validate
  let payload ← Codecs.encodeU64 config values
  return Framing.encodeV1 config.codec payload

/-- Decode a v1 frame, validate its codec against `config`, then decode `u64` values. -/
def decodeU64Frame (config : EncodeConfig) (frame : List UInt8) : Result (List UInt64) := do
  config.validate
  let frame ← Framing.decodeV1 frame
  ensureFrameCodec config frame.codec
  Codecs.decodeU64 config frame.payload

/-- **Framed numbers are canonical**: a byte string decodes to numbers precisely when it is their
frame, whatever the configuration. -/
theorem decodeU64Frame_ok {config : EncodeConfig} {frame : List UInt8} {values : List UInt64}
    (hfit : Fits frame) :
    decodeU64Frame config frame = .ok values ↔ encodeU64Frame config values = .ok frame := by
  simp only [decodeU64Frame, encodeU64Frame, ensureFrameCodec, bind_ok, failIf_ok, not_not, pure_ok,
    Framing.decodeV1_ok hfit, Codecs.decodeU64_ok]
  constructor
  · rintro ⟨u, hvalid, ⟨codec, payload⟩, hframe, _, hcodec, hencode⟩
    exact ⟨u, hvalid, payload, hencode, by rw [hframe, ← hcodec]⟩
  · rintro ⟨u, hvalid, payload, hencode, hframe⟩
    exact ⟨u, hvalid, ⟨config.codec, payload⟩, hframe.symm, (), rfl, hencode⟩

end CompactCore
