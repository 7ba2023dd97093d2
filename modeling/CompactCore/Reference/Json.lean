/-
**Objects that are printed and read.**

The model takes `serde_json` as a parameter, and some of its results ask that an object that is
printed can be read again.  Here is a reader for which this is proved.  It knows the objects that
the crate prints: members without white space, whose values are strings, whole numbers, booleans or
null.

Main definitions:

* `CompactCore.Reference.Json.fromStr` — the reader;
* `CompactCore.Reference.Json.serdeJson` — the parameter that it makes.

Main results:

* `CompactCore.Reference.Json.readsBack` — **what is printed is read back**;
* `CompactCore.Reference.Json.oneLine` — on one line.
-/

import CompactCore.Io.Decoded
import CompactCore.Schema.Evolution

set_option relaxedAutoImplicit false
set_option autoImplicit false

namespace CompactCore.Reference.Json

open Io

/-! ### Strings -/

/-- The character that a letter behind a backslash stands for. -/
def unescape (c : Char) : Option Char :=
  if c = '"' then some '"'
  else if c = '\\' then some '\\'
  else if c = 'n' then some '\n'
  else if c = 'r' then some '\r'
  else if c = 't' then some '\t'
  else if c = 'b' then some (Char.ofNat 8)
  else if c = 'f' then some (Char.ofNat 12)
  else none

def hexValue (c : Char) : Option ℕ :=
  if c.isDigit then some (c.toNat - 48)
  else if 'a' ≤ c ∧ c ≤ 'f' then some (c.toNat - 87)
  else none

/-- What stands behind a backslash and a `u`. -/
def readCode : List Char → Option (Char × List Char)
  | a :: b :: c :: d :: rest => do
      let a ← hexValue a
      let b ← hexValue b
      let c ← hexValue c
      let d ← hexValue d
      return (Char.ofNat (((a * 16 + b) * 16 + c) * 16 + d), rest)
  | _ => none

/-- One character of a string. -/
def readChar : List Char → Option (Char × List Char)
  | '\\' :: 'u' :: rest => readCode rest
  | '\\' :: c :: rest => (unescape c).map (·, rest)
  | c :: rest => some (c, rest)
  | [] => none

/-- The characters of a string up to the quotation mark, of which there are fewer than `fuel`. -/
def readChars : ℕ → List Char → Option (List Char × List Char)
  | 0, _ => none
  | fuel + 1, text =>
      if text.head? = some '"' then some ([], text.tail)
      else do
        let (c, rest) ← readChar text
        let (cs, rest) ← readChars fuel rest
        return (c :: cs, rest)

def readString : List Char → Option (String × List Char)
  | '"' :: text => do
      let (cs, rest) ← readChars (text.length + 1) text
      return (String.ofList cs, rest)
  | _ => none

theorem hexValue_hexDigit {d : ℕ} (hd : d < 16) : hexValue (hexDigit d) = some d := by
  have hall : ∀ d < 16, hexValue (hexDigit d) = some d := by decide
  exact hall d hd

/-- A character that is printed inside a string is read back. -/
theorem readChar_escapeChar (c : Char) (rest : List Char) :
    readChar (escapeChar c ++ rest) = some (c, rest) := by
  unfold escapeChar
  split_ifs with hquote hslash hlf hcr htab hback hfeed hcontrol
  · rw [hquote]
    rfl
  · rw [hslash]
    rfl
  · rw [hlf]
    rfl
  · rw [hcr]
    rfl
  · rw [htab]
    rfl
  · rw [← Char.ofNat_toNat c, hback]
    rfl
  · rw [← Char.ofNat_toNat c, hfeed]
    rfl
  · have hzero : hexValue '0' = some 0 := rfl
    have hhigh := hexValue_hexDigit (show c.toNat / 16 < 16 by omega)
    have hlow := hexValue_hexDigit (show c.toNat % 16 < 16 by omega)
    simp only [List.cons_append, List.nil_append, readChar, readCode, hzero, hhigh, hlow,
      Option.bind_eq_bind, Option.bind_some, Option.pure_def]
    have hcode : ((0 * 16 + 0) * 16 + c.toNat / 16) * 16 + c.toNat % 16 = c.toNat := by omega
    rw [hcode, Char.ofNat_toNat]
  · rw [List.singleton_append]
    unfold readChar
    split
    next heq => exact absurd (List.cons.inj heq).1 hslash
    next heq => exact absurd (List.cons.inj heq).1 hslash
    next heq =>
      obtain ⟨rfl, rfl⟩ := List.cons.inj heq
      rfl
    next heq => cases heq

theorem head_escapeChar (c : Char) (rest : List Char) :
    (escapeChar c ++ rest).head? ≠ some '"' := by
  unfold escapeChar
  split_ifs with hquote
  all_goals try exact fun h => absurd (Option.some.inj h) (by decide)
  exact fun h => hquote (Option.some.inj h)

theorem readChars_escaped (cs rest : List Char) {fuel : ℕ} (hfuel : cs.length < fuel) :
    readChars fuel (cs.flatMap escapeChar ++ '"' :: rest) = some (cs, rest) := by
  induction cs generalizing fuel with
  | nil =>
      cases fuel with
      | zero => exact absurd hfuel (Nat.not_lt_zero _)
      | succ fuel => rfl
  | cons c cs ih =>
      cases fuel with
      | zero => exact absurd hfuel (Nat.not_lt_zero _)
      | succ fuel =>
          rw [List.flatMap_cons, List.append_assoc, readChars, if_neg (head_escapeChar c _),
            readChar_escapeChar]
          simp only [Option.bind_eq_bind, Option.bind_some, Option.pure_def,
            ih (Nat.lt_of_succ_lt_succ hfuel)]

/-- A string that is printed is read back. -/
theorem readString_print (s : String) (rest : List Char) :
    readString ((printString s).toList ++ rest) = some (s, rest) := by
  have hlen : ∀ cs : List Char, cs.length ≤ (cs.flatMap escapeChar).length := by
    intro cs
    induction cs with
    | nil => exact Nat.le_refl _
    | cons c cs ih =>
        have hpos : 0 < (escapeChar c).length := by
          unfold escapeChar
          split_ifs <;> exact Nat.succ_pos _
        rw [List.flatMap_cons, List.length_append, List.length_cons]
        omega
  rw [printString, String.toList_ofList, List.cons_append, List.append_assoc, readString,
    List.singleton_append, readChars_escaped]
  · simp only [Option.bind_eq_bind, Option.bind_some, Option.pure_def, String.ofList_toList]
  · rw [List.length_append]
    have h := hlen s.toList
    omega

/-! ### Numbers -/

/-- The digits in front of a text, behind what has been read of a number. -/
def readDigits : ℕ → List Char → ℕ × List Char
  | n, [] => (n, [])
  | n, c :: rest =>
      if c.isDigit then readDigits (n * 10 + (c.toNat - 48)) rest else (n, c :: rest)

theorem readDigits_digitChar {n d : ℕ} (hd : d < 10) (rest : List Char) :
    readDigits n (Nat.digitChar d :: rest) = readDigits (n * 10 + d) rest := by
  rw [readDigits, if_pos (by simpa using hd), Nat.toNat_digitChar_sub_48_of_lt_ten hd]

theorem readDigits_toDigits (n : ℕ) (rest : List Char) :
    readDigits 0 (Nat.toDigits 10 n ++ rest) = readDigits n rest := by
  induction n using Nat.strong_induction_on generalizing rest with
  | _ n ih =>
      rw [Nat.toDigits_eq_if (by decide)]
      split
      next hlt => rw [List.singleton_append, readDigits_digitChar hlt, Nat.zero_mul, Nat.zero_add]
      next hge =>
        rw [List.append_assoc, ih (n / 10) (by omega), List.singleton_append,
          readDigits_digitChar (Nat.mod_lt _ (by decide)), Nat.div_add_mod']

/-! ### Values -/

/-- A value behind a member's name. -/
def readValue : List Char → Option (Value × List Char)
  | 't' :: 'r' :: 'u' :: 'e' :: rest => some (.bool true, rest)
  | 'f' :: 'a' :: 'l' :: 's' :: 'e' :: rest => some (.bool false, rest)
  | 'n' :: 'u' :: 'l' :: 'l' :: rest => some (.null, rest)
  | '"' :: rest => (readString ('"' :: rest)).map fun found => (.string found.1, found.2)
  | c :: rest =>
      if c.isDigit then
        let (n, rest) := readDigits 0 (c :: rest)
        if n < 2 ^ 64 then some (.number (.posInt (UInt64.ofNat n)), rest) else none
      else none
  | [] => none

/-- A plain value that is printed is read back, if no digit follows. -/
theorem readValue_print {value : Value} (h : Plain value) {c : Char} (hc : c.isDigit = false)
    (rest : List Char) :
    readValue ((printValue value).toList ++ c :: rest) = some (value, c :: rest) := by
  rcases h with rfl | ⟨valueType, h⟩
  · rfl
  cases valueType with
  | bool =>
      obtain ⟨b, rfl⟩ := h
      cases b <;> rfl
  | string =>
      obtain ⟨s, rfl⟩ := h
      have hread := readString_print s (c :: rest)
      rw [printValue]
      rw [printString, String.toList_ofList, List.cons_append] at hread ⊢
      rw [readValue, hread]
      rfl
  | u64 =>
      obtain ⟨v, rfl⟩ := h
      obtain ⟨first, digits, hdigits⟩ : ∃ first digits, Nat.toDigits 10 v.toNat = first :: digits :=
        List.exists_cons_of_ne_nil Nat.toDigits_ne_nil
      have hfirst : first.isDigit = true :=
        Nat.isDigit_of_mem_toDigits (by decide) (by decide) (hdigits ▸ List.mem_cons_self)
      have hread := readDigits_toDigits v.toNat (c :: rest)
      rw [hdigits, List.cons_append] at hread
      rw [printValue, String.toList_ofList, hdigits, List.cons_append]
      unfold readValue
      split
      next heq => rw [(List.cons.inj heq).1] at hfirst; cases hfirst
      next heq => rw [(List.cons.inj heq).1] at hfirst; cases hfirst
      next heq => rw [(List.cons.inj heq).1] at hfirst; cases hfirst
      next heq => rw [(List.cons.inj heq).1] at hfirst; cases hfirst
      next heq =>
        rw [← heq, hread, if_pos ((List.cons.inj heq).1 ▸ hfirst), readDigits, hc]
        simp only [Bool.false_eq_true, ↓reduceIte, v.toNat_lt, UInt64.ofNat_toNat]
      next heq => cases heq

/-! ### Objects -/

/-- A member of an object. -/
def readMember (text : List Char) : Option ((String × Value) × List Char) := do
  let (name, rest) ← readString text
  if rest.head? = some ':' then
    let (value, rest) ← readValue rest.tail
    return ((name, value), rest)
  else none

/-- The members of an object up to its end, of which there are at most `fuel`. -/
def readMembers : ℕ → List Char → Option (List (String × Value))
  | 0, _ => none
  | fuel + 1, text => do
      let (member, rest) ← readMember text
      if rest.head? = some ',' then (readMembers fuel rest.tail).map (member :: ·)
      else if rest = ['\x7d'] then some [member]
      else none

def readObject : List Char → Option (List (String × Value))
  | [] => none
  | c :: text =>
      if c = '\x7b' then
        if text.head? = some '"' then readMembers text.length text
        else if text = ['\x7d'] then some []
        else none
      else none

/-- `serde_json::from_str`, of an object. -/
def fromStr (line : String) : Option Value :=
  (readObject line.toList).map fun members =>
    .object (members.foldl (fun (row : Map) member => row.insert member.1 member.2) [])

/-- `Value::to_string`. -/
def display : Value → String
  | .object members => @renderObject ⟨fromStr, printString, printValue⟩ members
  | value => printValue value

scoped instance crc32Fast : Crc32Fast := ⟨crc32⟩

scoped instance blake3 : Blake3 := Reference.blake3

scoped instance serdeJson : SerdeJson := ⟨fromStr, printString, display⟩

theorem display_plain {value : Value} (h : Plain value) : display value = printValue value := by
  rcases h with rfl | ⟨valueType, h⟩
  · rfl
  · cases valueType <;> obtain ⟨_, rfl⟩ := h <;> rfl

/-- A member, as it is printed. -/
def memberText (member : String × Value) : List Char :=
  (printString member.1).toList ++ ':' :: (printValue member.2).toList

theorem foldl_members (members : List (String × Value))
    (hplain : ∀ member ∈ members, Plain member.2) (out : String) {n : ℕ} (hn : 0 < n) :
    ((members.zipIdx n).foldl (fun out member =>
      (if 0 < member.2 then out ++ "," else out) ++ SerdeJson.toString member.1.1 ++ ":" ++
        SerdeJson.display member.1.2) out).toList =
      out.toList ++ members.flatMap fun member => ',' :: memberText member := by
  induction members generalizing out n with
  | nil => rw [List.zipIdx_nil, List.foldl_nil, List.flatMap_nil, List.append_nil]
  | cons member members ih =>
      obtain ⟨hmember, hmembers⟩ := List.forall_mem_cons.1 hplain
      rw [List.zipIdx_cons, List.foldl_cons, ih hmembers _ (Nat.succ_pos n), if_pos hn,
        List.flatMap_cons]
      have hname : SerdeJson.toString member.1 = printString member.1 := rfl
      have hdisplay : SerdeJson.display member.2 = printValue member.2 := display_plain hmember
      have hcomma : ",".toList = [','] := rfl
      have hcolon : ":".toList = [':'] := rfl
      simp only [String.toList_append, hname, hdisplay, hcomma, hcolon, memberText,
        List.append_assoc, List.nil_append, List.cons_append]

/-- An object with members, as it is printed. -/
theorem renderObject_toList (member : String × Value) (members : List (String × Value))
    (hmember : Plain member.2) (hmembers : ∀ member ∈ members, Plain member.2) :
    (renderObject (member :: members)).toList = '\x7b' :: (memberText member ++
      (members.flatMap (fun member => ',' :: memberText member) ++ ['\x7d'])) := by
  have hname : SerdeJson.toString member.1 = printString member.1 := rfl
  have hdisplay : SerdeJson.display member.2 = printValue member.2 := display_plain hmember
  have hopen : "\x7b".toList = ['\x7b'] := rfl
  have hclose : "\x7d".toList = ['\x7d'] := rfl
  have hcolon : ":".toList = [':'] := rfl
  rw [renderObject, List.zipIdx_cons, List.foldl_cons, String.toList_append,
    foldl_members members hmembers _ (Nat.succ_pos 0)]
  simp only [Nat.lt_irrefl, ↓reduceIte, String.toList_append, hname, hdisplay, hopen, hclose,
    hcolon, memberText, List.append_assoc, List.nil_append, List.cons_append]

theorem readMember_text {member : String × Value} (h : Plain member.2) {c : Char}
    (hc : c.isDigit = false) (rest : List Char) :
    readMember (memberText member ++ c :: rest) = some (member, c :: rest) := by
  rw [memberText, List.append_assoc, List.cons_append, readMember, readString_print]
  simp only [Option.bind_eq_bind, Option.bind_some, List.head?_cons, ↓reduceIte, List.tail_cons,
    readValue_print h hc, Option.pure_def]

theorem readMembers_text {member : String × Value} {members : List (String × Value)}
    (hmember : Plain member.2) (hmembers : ∀ member ∈ members, Plain member.2) {fuel : ℕ}
    (hfuel : members.length < fuel) :
    readMembers fuel (memberText member ++
      (members.flatMap (fun member => ',' :: memberText member) ++ ['\x7d'])) =
        some (member :: members) := by
  induction members generalizing member fuel with
  | nil =>
      cases fuel with
      | zero => exact absurd hfuel (Nat.not_lt_zero _)
      | succ fuel =>
          rw [List.flatMap_nil, List.nil_append, readMembers, readMember_text hmember (by decide)]
          rfl
  | cons next members ih =>
      cases fuel with
      | zero => exact absurd hfuel (Nat.not_lt_zero _)
      | succ fuel =>
          obtain ⟨hnext, hmembers⟩ := List.forall_mem_cons.1 hmembers
          rw [List.flatMap_cons, List.cons_append, List.cons_append, List.append_assoc, readMembers,
            readMember_text hmember (by decide)]
          simp only [Option.bind_eq_bind, Option.bind_some, List.head?_cons, ↓reduceIte,
            List.tail_cons, ih hnext hmembers (Nat.lt_of_succ_lt_succ hfuel), Option.map_some]

theorem length_le_flatMap (members : List (String × Value)) :
    members.length ≤ (members.flatMap fun member => ',' :: memberText member).length := by
  induction members with
  | nil => exact Nat.le_refl _
  | cons member members ih =>
      rw [List.flatMap_cons, List.length_append, List.length_cons, List.length_cons]
      omega

theorem get_foldl_insert {members row : Map} (hnodup : (members.map Prod.fst).Nodup)
    (key : String) :
    (members.foldl (fun (row : Map) member => row.insert member.1 member.2) row).get key =
      (members.get key).or (row.get key) := by
  induction members generalizing row with
  | nil => rfl
  | cons member members ih =>
      obtain ⟨name, value⟩ := member
      rw [List.map_cons, List.nodup_cons] at hnodup
      rw [List.foldl_cons, ih hnodup.2, Map.get_insert, Map.get_cons]
      split
      next heq =>
        have hnone : Map.get members key = none := by
          rw [Map.get, List.lookup_eq_none_iff]
          intro member hmem
          rw [bne_iff_ne, heq]
          intro hname
          exact hnodup.1 (List.mem_map.2 ⟨member, hmem, hname.symm⟩)
        rw [hnone]
        rfl
      next => rfl

/-- **What is printed is read back.** -/
theorem readsBack : ReadsBack where
  object := by
    intro members hnodup hplain
    refine ⟨members.foldl (fun (row : Map) member => row.insert member.1 member.2) [], ?_, ?_⟩
    · have hread : readObject (renderObject members).toList = some members := by
        cases members with
        | nil => rfl
        | cons member members =>
            obtain ⟨hmember, hmembers⟩ := List.forall_mem_cons.1 hplain
            have hhead : ∀ rest, (memberText member ++ rest).head? = some '"' := by
              intro rest
              rw [memberText, printString, String.toList_ofList]
              rfl
            rw [renderObject_toList member members hmember hmembers, readObject, if_pos rfl,
              if_pos (hhead _)]
            refine readMembers_text hmember hmembers ?_
            have h := length_le_flatMap members
            rw [List.length_append, List.length_append, List.length_singleton]
            omega
      show (readObject (renderObject members).toList).map _ = _
      rw [hread]
      rfl
    · intro key
      rw [get_foldl_insert hnodup]
      exact Option.or_none

theorem oneLine : Streaming.OneLine where
  toString := printString_oneLine
  display := by
    intro value
    cases value with
    | object members =>
        have hplain : @Streaming.OneLine ⟨fromStr, printString, printValue⟩ :=
          @Streaming.OneLine.mk ⟨fromStr, printString, printValue⟩ printString_oneLine
            printValue_oneLine
        exact @Streaming.OneLine.renderObject ⟨fromStr, printString, printValue⟩ hplain members
    | _ => exact printValue_oneLine _

end CompactCore.Reference.Json
