/-
**The libraries outside the crate, on concrete inputs.**

The model takes the libraries that the crate calls as parameters.  To run it they have to be
something: here the checksum is the CRC-32 of the IEEE polynomial, strings and whole numbers are
printed as `serde_json` prints them, and the JSON that is read is looked up in a table of lines.

Main definitions:

* `CompactCore.Reference.crc32` — the checksum, bit by bit;
* `CompactCore.Reference.printString`, `CompactCore.Reference.printValue` — printing;
* `CompactCore.Reference.jsonLines` — the lines that are read;
* `CompactCore.Reference.idSchema`, `CompactCore.Reference.idLines` — a table of one column, and its
  text;
* `CompactCore.Reference.repeated` — a text of any number of equal lines.

Main results:

* `CompactCore.Reference.printString_oneLine`, `CompactCore.Reference.printValue_oneLine` — what is
  printed has no line feed.
-/

import CompactCore.Io.Rows

set_option relaxedAutoImplicit false
set_option autoImplicit false

namespace CompactCore.Reference

/-! ### The checksum -/

/-- Shift a bit out of the register, and reduce by the reflected polynomial. -/
def crc32Bit (crc : UInt32) : UInt32 :=
  if crc &&& 1 = 1 then (crc >>> 1) ^^^ 0xEDB88320 else crc >>> 1

def crc32Byte (crc : UInt32) (byte : UInt8) : UInt32 :=
  (List.range 8).foldl (fun crc _ => crc32Bit crc) (crc ^^^ byte.toUInt32)

/-- The CRC-32 checksum of the IEEE polynomial. -/
def crc32 (data : List UInt8) : UInt32 := data.foldl crc32Byte 0xFFFFFFFF ^^^ 0xFFFFFFFF

-- the check value of the polynomial: the checksum of the digits from one to nine
example : crc32 [0x31, 0x32, 0x33, 0x34, 0x35, 0x36, 0x37, 0x38, 0x39] = 0xCBF43926 := by
  decide +kernel

/-! ### Printing -/

def hexDigit (d : ℕ) : Char := "0123456789abcdef".toList.getD d '0'

/-- A character inside a JSON string. -/
def escapeChar (c : Char) : List Char :=
  if c = '"' then ['\\', '"']
  else if c = '\\' then ['\\', '\\']
  else if c = '\n' then ['\\', 'n']
  else if c = '\r' then ['\\', 'r']
  else if c = '\t' then ['\\', 't']
  else if c.toNat = 8 then ['\\', 'b']
  else if c.toNat = 12 then ['\\', 'f']
  else if c.toNat < 32 then
    ['\\', 'u', '0', '0', hexDigit (c.toNat / 16), hexDigit (c.toNat % 16)]
  else [c]

/-- `serde_json::to_string` of a string. -/
def printString (s : String) : String :=
  String.ofList ('"' :: (s.toList.flatMap escapeChar ++ ['"']))

/-- `Value::to_string`.  Columns hold no fractions and no nested values. -/
def printValue : Value → String
  | .bool true => "true"
  | .bool false => "false"
  | .number (.posInt value) => String.ofList (Nat.toDigits 10 value.toNat)
  | .string value => printString value
  | _ => "null"

theorem hexDigit_ne {d : ℕ} (h : d < 16) : '\n' ≠ hexDigit d := by
  have hall : ∀ d < 16, '\n' ≠ hexDigit d := by decide
  exact hall d h

theorem escapeChar_oneLine (c : Char) : '\n' ∉ escapeChar c := by
  unfold escapeChar
  split_ifs with hquote hslash hlf hcr htab hback hfeed hcontrol
  · decide
  · decide
  · decide
  · decide
  · decide
  · decide
  · decide
  · have hhigh := hexDigit_ne (show c.toNat / 16 < 16 by omega)
    have hlow := hexDigit_ne (show c.toNat % 16 < 16 by omega)
    simp [hhigh, hlow]
  · rw [List.mem_singleton]
    exact fun h => hlf h.symm

theorem printString_oneLine (s : String) : '\n' ∉ (printString s).toList := by
  rw [printString, String.toList_ofList, List.mem_cons, List.mem_append, List.mem_flatMap]
  intro h
  rcases h with h | ⟨c, -, hc⟩ | h
  · exact absurd h (by decide)
  · exact escapeChar_oneLine c hc
  · exact absurd h (by decide)

theorem printValue_oneLine (value : Value) : '\n' ∉ (printValue value).toList := by
  unfold printValue
  split
  · decide
  · decide
  · rename_i n
    rw [String.toList_ofList]
    intro hmem
    have hdigit := Nat.isDigit_of_mem_toDigits (by decide) (by decide) hmem
    exact absurd hdigit (by decide)
  · exact printString_oneLine _
  · decide

/-! ### The libraries -/

/-- The objects of some lines. -/
def jsonLines : List (String × Value) :=
  [("\x7b\"id\":1\x7d", .object [("id", .number (.posInt 1))]),
    ("\x7b\"id\": 1\x7d", .object [("id", .number (.posInt 1))]),
    ("\x7b\"id\":2\x7d", .object [("id", .number (.posInt 2))])]

scoped instance crc32Fast : Crc32Fast := ⟨crc32⟩

scoped instance blake3 : Blake3 := ⟨fun data => List.replicate 28 0 ++ Wire.le32 (crc32 data)⟩

scoped instance serdeJson : SerdeJson :=
  ⟨fun line => jsonLines.lookup line, printString, printValue⟩

/-! ### Running the model -/

/-- A run that ends well, with a result that passes a test. -/
theorem exists_ok {α : Type} {x : Result α} (P : α → Prop) [DecidablePred P]
    (h : (x.toOption.any fun a => P a) = true) : ∃ a, x = .ok a ∧ P a := by
  cases x with
  | error e => cases h
  | ok a => exact ⟨a, rfl, of_decide_eq_true h⟩

/-! ### A table -/

/-- A table of one column of numbers. -/
def idSchema (codec : SchemaCodec) : Schema := ⟨[⟨"id", .u64, codec, false⟩]⟩

def idRows : List Map := [[("id", .number (.posInt 1))], [("id", .number (.posInt 2))]]

def idLines : String := "\x7b\"id\":1\x7d\n\x7b\"id\":2\x7d\n"

/-! ### A table of any length -/

def idLine : String := "\x7b\"id\":1\x7d"

def idRow : Map := [("id", .number (.posInt 1))]

/-- The text that has the same line `n` times. -/
def repeated (n : ℕ) : String := String.join (List.replicate n (idLine ++ "\n"))

theorem repeated_succ (n : ℕ) : repeated (n + 1) = idLine ++ "\n" ++ repeated n := by
  rw [repeated, List.replicate_succ, String.join_cons]
  rfl

theorem lines_repeated (n : ℕ) : lines (repeated n) = List.replicate n idLine := by
  induction n with
  | zero => rfl
  | succ n ih =>
      rw [repeated_succ, lines_append_line (by decide) (by decide), ih, List.replicate_succ]

theorem length_asBytes_repeated (n : ℕ) : (asBytes (repeated n)).length = 9 * n := by
  induction n with
  | zero => rfl
  | succ n ih =>
      have hline : (asBytes (idLine ++ "\n")).length = 9 := rfl
      rw [repeated_succ, asBytes_append, List.length_append, hline, ih]
      omega

theorem filter_lines_repeated (n : ℕ) :
    ((lines (repeated n)).filter fun line => !isBlank line) = List.replicate n idLine := by
  rw [lines_repeated, List.filter_replicate, if_pos (by decide)]

theorem parseRows_repeated (n : ℕ) : Io.parseRows (repeated n) = .ok (List.replicate n idRow) := by
  have hline : Io.parseJsonlObject idLine = .ok idRow := rfl
  rw [Io.parseRows, filter_lines_repeated]
  induction n with
  | zero => rfl
  | succ n ih =>
      rw [List.replicate_succ, List.mapM_cons, hline, ih]
      rfl

/-! ### A table of empty strings -/

namespace Texts

def textLine : String := "\x7b\"s\":\"\"\x7d"

def textRow : Map := [("s", .string "")]

/-- A table of one column of strings. -/
def textSchema : Schema := ⟨[⟨"s", .string, .rle, false⟩]⟩

scoped instance crc32Fast : Crc32Fast := ⟨crc32⟩

scoped instance serdeJson : SerdeJson :=
  ⟨fun line => if line = textLine then some (.object textRow) else none, printString, printValue⟩

end Texts

end CompactCore.Reference
