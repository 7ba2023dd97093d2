/-
**Codec dispatch.**

A configuration names a value type, a transform and a codec.  The enumerations have members for
codecs that do not exist yet, and `validate` separates the combinations that are implemented.

Main definitions:

* `CompactCore.EncodeConfig`, `CompactCore.EncodeConfig.validate` — a configuration and its check;
* `CompactCore.Codecs.encodeBytes`, `CompactCore.Codecs.encodeU64` and their decoders — dispatch.

Main results:

* `CompactCore.Codecs.decodeU64_ok` — the numeric dispatch is exact for every configuration.
-/

import CompactCore.Primitives.Delta
import CompactCore.Primitives.Rle

set_option relaxedAutoImplicit false
set_option autoImplicit false

namespace CompactCore

open Wire CompactError

inductive ValueType
  | rawBytes
  | string
  | u32
  | u64
  | i32
  | i64
  deriving DecidableEq, Repr

inductive Transform
  | none
  | delta
  | zigZag
  deriving DecidableEq, Repr

inductive Codec
  | rle
  | deltaVarintU64
  | columnBlock
  | huffman
  | lz77
  deriving DecidableEq, Repr

structure EncodeConfig where
  valueType : ValueType
  transform : Transform
  codec : Codec
  deriving DecidableEq, Repr

/-- Validate whether this config is implemented by the current core crate. -/
def EncodeConfig.validate (config : EncodeConfig) : Result Unit :=
  match config.valueType, config.transform, config.codec with
  | .rawBytes, .none, .rle => .ok ()
  | .string, .none, .rle => .ok ()
  | .u64, .delta, .deltaVarintU64 => .ok ()
  | _, _, .columnBlock => .ok ()
  | _, _, .huffman => .error (unsupported "huffman codec")
  | _, _, .lz77 => .error (unsupported "lz77 codec")
  | _, _, _ => .error (unsupported "codec configuration")

namespace Codecs

/-- Encode raw bytes with an implemented byte codec. -/
def encodeBytes (config : EncodeConfig) (input : List UInt8) : Result (List UInt8) := do
  config.validate
  match config.valueType, config.transform, config.codec with
  | .rawBytes, .none, .rle => .ok (Rle.encodeRle input)
  | _, _, _ => .error (unsupported "byte codec configuration")

/-- Decode raw bytes with an implemented byte codec. -/
def decodeBytes (config : EncodeConfig) (input : List UInt8) : Result (List UInt8) := do
  config.validate
  match config.valueType, config.transform, config.codec with
  | .rawBytes, .none, .rle => Rle.decodeRle input
  | _, _, _ => .error (unsupported "byte codec configuration")

/-- Encode `u64` values with an implemented numeric codec. -/
def encodeU64 (config : EncodeConfig) (input : List UInt64) : Result (List UInt8) := do
  config.validate
  match config.valueType, config.transform, config.codec with
  | .u64, .delta, .deltaVarintU64 => DeltaVarint.encodeU64 input
  | _, _, _ => .error (unsupported "u64 codec configuration")

/-- Decode `u64` values with an implemented numeric codec. -/
def decodeU64 (config : EncodeConfig) (input : List UInt8) : Result (List UInt64) := do
  config.validate
  match config.valueType, config.transform, config.codec with
  | .u64, .delta, .deltaVarintU64 => DeltaVarint.decodeU64 input
  | _, _, _ => .error (unsupported "u64 codec configuration")

/-- **Numeric dispatch is exact**, whatever the configuration. -/
theorem decodeU64_ok {config : EncodeConfig} {data : List UInt8} {values : List UInt64} :
    decodeU64 config data = .ok values ↔ encodeU64 config values = .ok data := by
  unfold decodeU64 encodeU64
  simp only [bind_ok]
  refine exists_congr fun _ => and_congr_right fun _ => ?_
  split
  · exact DeltaVarint.decodeU64_ok
  · simp

/-- Byte dispatch inverts itself on input within the decoder's limit. -/
theorem decodeBytes_encodeBytes {config : EncodeConfig} {input data : List UInt8}
    (h : encodeBytes config input = .ok data) (hmax : input.length ≤ maxDecodedBytes)
    (hfit : Fits input) : decodeBytes config data = .ok input := by
  unfold encodeBytes at h
  unfold decodeBytes
  simp only [bind_ok] at h ⊢
  obtain ⟨u, hvalid, h⟩ := h
  refine ⟨u, hvalid, ?_⟩
  split at h
  · cases h
    exact Rle.decodeRleBounded_encodeRle hmax hfit
  · cases h

/-- Byte dispatch never returns more than the decoder's limit. -/
theorem decodeBytes_length_le {config : EncodeConfig} {data out : List UInt8}
    (h : decodeBytes config data = .ok out) : out.length ≤ maxDecodedBytes := by
  unfold decodeBytes at h
  simp only [bind_ok] at h
  obtain ⟨_, -, h⟩ := h
  split at h
  · exact Rle.decodeRleBounded_length_le h
  · cases h

end Codecs

end CompactCore
