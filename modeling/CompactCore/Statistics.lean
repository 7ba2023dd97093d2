/-
**Column statistics.**

A column chunk carries a small, versioned record about its values: the range of the integers, the
number of true booleans, or the number of distinct strings.

Main definitions:

* `CompactCore.ColumnStatistics` — the decoded record;
* `CompactCore.Statistics.encodeU64`, `CompactCore.Statistics.encodeBool`,
  `CompactCore.Statistics.encodeString`, `CompactCore.Statistics.decode` — the codec.

Main results:

* `CompactCore.Statistics.decode_encodeU64`, `CompactCore.Statistics.decode_encodeBool`,
  `CompactCore.Statistics.decode_encodeString` — the encoders' records are read back.
-/

import CompactCore.Core

set_option relaxedAutoImplicit false
set_option autoImplicit false

namespace CompactCore

open Wire CompactError

inductive ColumnStatistics
  | none
  | u64 (min max : UInt64)
  | bool (trueCount : UInt64)
  | string (distinctCount : UInt64)
  deriving DecidableEq, Repr

namespace Statistics

def noneTag : UInt8 := 0

def u64Range : UInt8 := 1

def boolCounts : UInt8 := 2

def stringCardinality : UInt8 := 3

def encodeU64 (min max : Option UInt64) : List UInt8 :=
  match min, max with
  | some min, some max => u64Range :: (le64 min ++ le64 max)
  | _, _ => [noneTag]

def encodeBool (trueCount : UInt64) : List UInt8 := boolCounts :: le64 trueCount

def encodeString (distinctCount : UInt64) : List UInt8 := stringCardinality :: le64 distinctCount

def decode (data : List UInt8) : Result ColumnStatistics :=
  match data with
  | [] => .error (invalidInput "invalid cmp3 statistics metadata")
  | tag :: rest =>
      if tag = noneTag ∧ rest = [] then .ok .none
      else if tag = u64Range ∧ rest.length = 16 then do
        let min := u64OfLe (rest.take 8)
        let max := u64OfLe (rest.drop 8)
        failIf (max < min) (invalidInput "cmp3 u64 statistics min exceeds max")
        return .u64 min max
      else if tag = boolCounts ∧ rest.length = 8 then .ok (.bool (u64OfLe rest))
      else if tag = stringCardinality ∧ rest.length = 8 then .ok (.string (u64OfLe rest))
      else .error (invalidInput "invalid cmp3 statistics metadata")

theorem length_encodeU64_le (min max : Option UInt64) : (encodeU64 min max).length ≤ 17 := by
  unfold encodeU64
  split <;> simp

/-! ### Ranges -/

instance lawfulOrderMax : Std.LawfulOrderMax UInt64 where
  max_eq_or a b := by
    show (if a ≤ b then b else a) = a ∨ (if a ≤ b then b else a) = b
    split
    · exact Or.inr rfl
    · exact Or.inl rfl
  max_le_iff a b c := by
    show (if a ≤ b then b else a) ≤ c ↔ a ≤ c ∧ b ≤ c
    split
    · rename_i h
      exact ⟨fun hb => ⟨UInt64.le_trans h hb, hb⟩, fun hc => hc.2⟩
    · rename_i h
      have hba : b ≤ a := UInt64.le_of_lt (UInt64.not_le.1 h)
      exact ⟨fun ha => ⟨ha, UInt64.le_trans hba ha⟩, fun hc => hc.1⟩

/-- What a minimum and a maximum say about a list. -/
theorem mem_range {values : List UInt64} {min max : UInt64} (hmin : values.min? = some min)
    (hmax : values.max? = some max) {value : UInt64} (h : value ∈ values) :
    min ≤ value ∧ value ≤ max :=
  ⟨(List.min?_eq_some_iff.1 hmin).2 value h, (List.max?_eq_some_iff.1 hmax).2 value h⟩

theorem min_le_max {values : List UInt64} {min max : UInt64} (hmin : values.min? = some min)
    (hmax : values.max? = some max) : min ≤ max :=
  (mem_range hmin hmax (List.min?_eq_some_iff.1 hmin).1).2

theorem exists_range {values : List UInt64} (h : values ≠ []) :
    ∃ min max, values.min? = some min ∧ values.max? = some max ∧ min ≤ max := by
  obtain ⟨min, hmin⟩ := Option.ne_none_iff_exists'.1 (mt List.min?_eq_none_iff.1 h)
  obtain ⟨max, hmax⟩ := Option.ne_none_iff_exists'.1 (mt List.max?_eq_none_iff.1 h)
  exact ⟨min, max, hmin, hmax, min_le_max hmin hmax⟩

/-! ### Records are read back -/

theorem decode_encodeU64_none : decode (encodeU64 none none) = .ok .none := rfl

theorem decode_encodeU64 {min max : UInt64} (h : min ≤ max) :
    decode (encodeU64 (some min) (some max)) = .ok (.u64 min max) := by
  have hlt : ¬max < min := by rwa [UInt64.not_lt]
  have htake : (le64 min ++ le64 max).take 8 = le64 min := List.take_left' (length_le64 min)
  have hdrop : (le64 min ++ le64 max).drop 8 = le64 max := List.drop_left' (length_le64 min)
  simp [decode, encodeU64, u64Range, noneTag, htake, hdrop, hlt, failIf]

/-- The range of any values is read back. -/
theorem decode_range (values : List UInt64) :
    ∃ statistics, decode (encodeU64 values.min? values.max?) = .ok statistics := by
  by_cases hnil : values = []
  · subst hnil
    exact ⟨_, decode_encodeU64_none⟩
  · obtain ⟨min, max, hmin, hmax, hle⟩ := exists_range hnil
    rw [hmin, hmax]
    exact ⟨_, decode_encodeU64 hle⟩

theorem decode_encodeBool (trueCount : UInt64) :
    decode (encodeBool trueCount) = .ok (.bool trueCount) := by
  simp [decode, encodeBool, boolCounts, u64Range, noneTag]

theorem decode_encodeString (distinctCount : UInt64) :
    decode (encodeString distinctCount) = .ok (.string distinctCount) := by
  simp [decode, encodeString, stringCardinality, boolCounts, u64Range, noneTag]

end Statistics

end CompactCore
