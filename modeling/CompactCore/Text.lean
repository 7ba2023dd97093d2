/-
**Text: UTF-8 strings and lines.**

The crate is generous with text functions of the standard library: it measures strings in UTF-8
bytes, cuts text into lines, trims white space and strips line endings.  This module models the
ones it uses, on the characters of a `String`, and proves what the JSONL code relies on: a block of
normalized rows is cut back into exactly those rows.

Main definitions:

* `CompactCore.asBytes`, `CompactCore.fromUtf8` — the UTF-8 bytes of a string, and back;
* `CompactCore.lines` — `str::lines`;
* `CompactCore.isBlank` — `line.trim().is_empty()`;
* `CompactCore.stripSuffix`, `CompactCore.containsLineBreak` — the parts of line normalization.

Main results:

* `CompactCore.fromUtf8_eq_some` — a string is decoded from its own bytes and from no others;
* `CompactCore.lines_append_line` — a line that ends in `\n` is cut off the front of a text.
-/

import CompactCore.Core

set_option relaxedAutoImplicit false
set_option autoImplicit false

namespace CompactCore

/-! ### UTF-8 -/

/-- `str::as_bytes`. -/
def asBytes (s : String) : List UInt8 := s.toByteArray.data.toList

/-- `str::from_utf8`. -/
def fromUtf8 (bytes : List UInt8) : Option String := String.fromUTF8? ⟨bytes.toArray⟩

theorem asBytes_inj {s t : String} (h : asBytes s = asBytes t) : s = t := by
  rw [← String.toByteArray_inj]
  have harr : s.toByteArray.data = t.toByteArray.data := Array.toList_inj.1 h
  exact ByteArray.ext harr

theorem asBytes_append (s t : String) : asBytes (s ++ t) = asBytes s ++ asBytes t := by
  rw [asBytes, String.toByteArray_append, ByteArray.data_append, Array.toList_append]
  rfl

@[simp] theorem asBytes_empty : asBytes "" = [] := rfl

/-- The byte length of a string. -/
theorem length_asBytes (s : String) : (asBytes s).length = s.utf8ByteSize := rfl

/-- **UTF-8 decoding is exact.** -/
theorem fromUtf8_eq_some {bytes : List UInt8} {s : String} :
    fromUtf8 bytes = some s ↔ bytes = asBytes s := by
  unfold fromUtf8 String.fromUTF8?
  split
  · rw [Option.some.injEq, ← String.toByteArray_inj]
    show ByteArray.mk bytes.toArray = s.toByteArray ↔ _
    refine ⟨fun h => by rw [asBytes, ← h], fun h => by subst h; rfl⟩
  · rename_i hinvalid
    simp only [reduceCtorEq, false_iff]
    intro h
    subst h
    exact hinvalid s.isValidUTF8

@[simp] theorem fromUtf8_asBytes (s : String) : fromUtf8 (asBytes s) = some s :=
  fromUtf8_eq_some.2 rfl

theorem asBytes_eq_nil {s : String} : asBytes s = [] ↔ s = "" := by
  refine ⟨fun h => asBytes_inj (by rw [h, asBytes_empty]), fun h => by subst h; rfl⟩

/-- The byte strings of a list of strings, joined, are the bytes of the joined string. -/
theorem asBytes_join (parts : List String) :
    asBytes (String.join parts) = parts.flatMap asBytes := by
  induction parts with
  | nil => rfl
  | cons s parts ih => rw [String.join_cons, asBytes_append, ih, List.flatMap_cons]

/-! ### White space -/

/-- `char::is_whitespace`: the Unicode property `White_Space`. -/
def isWhitespace (c : Char) : Bool :=
  let n := c.toNat
  (9 ≤ n && n ≤ 13) || n == 0x20 || n == 0x85 || n == 0xa0 || n == 0x1680 ||
    (0x2000 ≤ n && n ≤ 0x200a) || n == 0x2028 || n == 0x2029 || n == 0x202f || n == 0x205f ||
    n == 0x3000

/-- `line.trim().is_empty()`. -/
def isBlank (line : String) : Bool := line.toList.all isWhitespace

theorem isBlank_append (s t : String) : isBlank (s ++ t) = (isBlank s && isBlank t) := by
  rw [isBlank, String.toList_append, List.all_append]
  rfl

/-! ### Line endings -/

/-- `line.strip_suffix(c).unwrap_or(line)`. -/
def stripSuffix (c : Char) (line : String) : String :=
  if line.toList.getLast? = some c then String.ofList line.toList.dropLast else line

/-- `line.contains(['\n', '\r'])`. -/
def containsLineBreak (line : String) : Bool :=
  line.toList.contains '\n' || line.toList.contains '\r'

/-- A stripped line is the line with at most that character taken off its end. -/
theorem stripSuffix_eq (c : Char) (line : String) :
    stripSuffix c line = line ∨ stripSuffix c line ++ String.ofList [c] = line := by
  unfold stripSuffix
  split
  · rename_i h
    right
    have hsplit := List.dropLast_append_getLast? c h
    rw [← String.ofList_append, hsplit, String.ofList_toList]
  · exact Or.inl rfl

/-- Stripping a white-space character does not change whether a line is blank. -/
theorem isBlank_stripSuffix {c : Char} (hc : isWhitespace c = true) (line : String) :
    isBlank (stripSuffix c line) = isBlank line := by
  rcases stripSuffix_eq c line with h | h
  · rw [h]
  · conv_rhs => rw [← h]
    rw [isBlank_append]
    simp [isBlank, hc]

/-! ### Cutting text into lines -/

/-- `split_inclusive('\n')`: the pieces of a text, each up to and including a line feed. -/
def splitInclusive : List Char → List (List Char)
  | [] => []
  | c :: cs =>
      if c = '\n' then [c] :: splitInclusive cs
      else
        match splitInclusive cs with
        | [] => [[c]]
        | piece :: pieces => (c :: piece) :: pieces

/-- Take a line ending off a piece: `\n`, and a `\r` in front of it. -/
def stripLineEnding (piece : List Char) : List Char :=
  if piece.getLast? = some '\n' then
    let line := piece.dropLast
    if line.getLast? = some '\r' then line.dropLast else line
  else piece

/-- `str::lines`. -/
def lines (text : String) : List String :=
  (splitInclusive text.toList).map fun piece => String.ofList (stripLineEnding piece)

@[simp] theorem lines_empty : lines "" = [] := rfl

theorem splitInclusive_line {line : List Char} (hline : '\n' ∉ line) (rest : List Char) :
    splitInclusive (line ++ '\n' :: rest) = (line ++ ['\n']) :: splitInclusive rest := by
  induction line with
  | nil => simp [splitInclusive]
  | cons c line ih =>
      have hc : c ≠ '\n' := fun h => hline (by simp [h])
      rw [List.cons_append, splitInclusive, if_neg hc, ih fun h => hline (by simp [h])]
      rfl

/-- A line that ends in `\n`, and has no other line break, is cut off the front of a text. -/
theorem lines_append_line {line : String} (hlf : '\n' ∉ line.toList)
    (hcr : line.toList.getLast? ≠ some '\r') (rest : String) :
    lines (line ++ "\n" ++ rest) = line :: lines rest := by
  have hchars : (line ++ "\n" ++ rest).toList = line.toList ++ '\n' :: rest.toList := by
    simp
  rw [lines, hchars, splitInclusive_line hlf, List.map_cons]
  congr 1
  have hstrip : stripLineEnding (line.toList ++ ['\n']) = line.toList := by
    simp only [stripLineEnding, List.getLast?_append_cons, List.getLast?_singleton, if_true,
      List.dropLast_concat, if_neg hcr]
  rw [hstrip, String.ofList_toList]

end CompactCore
