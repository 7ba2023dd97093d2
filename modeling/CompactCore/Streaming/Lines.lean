/-
**Reading an input line by line.**

Encoders read JSONL a line at a time from a buffered input, with a bound on the length of a line
that is checked before the line is complete.  A `BufRead` hands its bytes out in buffers of any
length; the lines read do not depend on them.

Main definitions:

* `CompactCore.Streaming.BufRead`, `CompactCore.Streaming.readBoundedJsonlLine`,
  `CompactCore.Streaming.forLines` — reading lines;
* `CompactCore.Streaming.cutLines`, `CompactCore.Streaming.InputLines` — the lines of some bytes;
* `CompactCore.Streaming.LineCalls`, `CompactCore.Streaming.lineResults` — the results of calls up
  to the last one, and what the lines say that they are.

Main results:

* `CompactCore.Streaming.readLine_eq` — **how the input is buffered does not matter**;
* `CompactCore.Streaming.forLines_ok` — a loop over the lines of an input goes through the lines of
  its bytes;
* `CompactCore.Streaming.lineCalls_iff` — **calls return the lines of the bytes**, up to the first
  one that is too long or is not text.
-/

import CompactCore.Text
import CompactCore.Core
import CompactCore.Reference
import CompactCore.Wire.Method

set_option relaxedAutoImplicit false
set_option autoImplicit false

namespace CompactCore.Streaming

open Wire CompactError

/-! ### Buffered input -/

/-- An input that hands out its bytes in buffers, none of which is empty before its end. -/
structure BufRead where
  buffers : List (List UInt8)
  nonempty : ∀ buffer ∈ buffers, buffer ≠ []

namespace BufRead

def bytes (input : BufRead) : List UInt8 := input.buffers.flatten

/-- A byte slice as an input. -/
def cursor (bytes : List UInt8) : BufRead where
  buffers := if bytes = [] then [] else [bytes]
  nonempty := by
    intro buffer hbuffer
    split at hbuffer
    · cases hbuffer
    · rename_i hne
      rwa [List.mem_singleton.1 hbuffer]

/-- `fill_buf`. -/
def fillBuf (input : BufRead) : List UInt8 := input.buffers.headD []

/-- `consume`: what is left of the first buffer, if anything, and the buffers behind it. -/
def consume (input : BufRead) (n : ℕ) : BufRead where
  buffers := (input.buffers.headD []).drop n :: input.buffers.tail |>.filter (· ≠ [])
  nonempty := by
    intro buffer hbuffer
    simpa using (List.mem_filter.1 hbuffer).2

theorem bytes_cursor (bytes : List UInt8) : (cursor bytes).bytes = bytes := by
  by_cases h : bytes = []
  · simp [cursor, BufRead.bytes, h]
  · simp [cursor, BufRead.bytes, h]

theorem bytes_eq_fillBuf (input : BufRead) :
    input.bytes = input.fillBuf ++ input.buffers.tail.flatten := by
  rw [bytes, fillBuf]
  cases input.buffers <;> rfl

theorem fillBuf_eq_nil {input : BufRead} : input.fillBuf = [] ↔ input.bytes = [] := by
  obtain ⟨buffers, hne⟩ := input
  cases buffers with
  | nil => exact Iff.rfl
  | cons buffer buffers =>
      have hbuffer := hne buffer List.mem_cons_self
      constructor
      · intro h
        exact absurd h hbuffer
      · intro h
        exact (List.append_eq_nil_iff.1 h).1

theorem bytes_consume {input : BufRead} {n : ℕ} (hn : n ≤ input.fillBuf.length) :
    (input.consume n).bytes = input.bytes.drop n := by
  have hfilter : ∀ buffers : List (List UInt8),
      (buffers.filter (· ≠ [])).flatten = buffers.flatten := by
    intro buffers
    induction buffers with
    | nil => rfl
    | cons buffer buffers ih =>
        rw [List.filter_cons]
        split
        · rw [List.flatten_cons, List.flatten_cons, ih]
        · rename_i h
          have hnil : buffer = [] := by simpa using h
          rw [ih, List.flatten_cons, hnil, List.nil_append]
  rw [bytes_eq_fillBuf input, List.drop_append_of_le_length hn]
  exact hfilter _

end BufRead

/-! ### Where lines end -/

/-- Where the first line of some bytes ends: behind its line feed, or at the end of the bytes. -/
def lineEnd (available : List UInt8) : ℕ :=
  match available.findIdx? (· == 0x0a) with
  | some index => index + 1
  | none => available.length

theorem lineEnd_le (available : List UInt8) : lineEnd available ≤ available.length := by
  unfold lineEnd
  split
  · rename_i index h
    exact (List.findIdx?_eq_some_iff_getElem.1 h).1
  · exact le_refl _

theorem lineEnd_pos {available : List UInt8} (h : available ≠ []) : 0 < lineEnd available := by
  unfold lineEnd
  split
  · exact Nat.succ_pos _
  · exact List.length_pos_of_ne_nil h

/-- The first line of some bytes. -/
def firstLine (bytes : List UInt8) : List UInt8 := bytes.take (lineEnd bytes)

theorem lineEnd_append_of_mem {a : List UInt8} (h : 0x0a ∈ a) (b : List UInt8) :
    lineEnd (a ++ b) = lineEnd a := by
  have hsome : (a.findIdx? (· == 0x0a)).isSome := by
    rw [List.findIdx?_isSome, List.any_eq_true]
    exact ⟨0x0a, h, beq_self_eq_true _⟩
  obtain ⟨index, hindex⟩ := Option.isSome_iff_exists.1 hsome
  rw [lineEnd, lineEnd, List.findIdx?_append, hindex]
  rfl

theorem lineEnd_of_not_mem {a : List UInt8} (h : 0x0a ∉ a) : lineEnd a = a.length := by
  have hnone : a.findIdx? (· == 0x0a) = none := by
    rw [List.findIdx?_eq_none_iff]
    intro x hx
    exact beq_false_of_ne fun heq => h (heq ▸ hx)
  rw [lineEnd, hnone]

theorem lineEnd_append_of_not_mem {a : List UInt8} (h : 0x0a ∉ a) (b : List UInt8) :
    lineEnd (a ++ b) = a.length + lineEnd b := by
  have hnone : a.findIdx? (· == 0x0a) = none := by
    rw [List.findIdx?_eq_none_iff]
    intro x hx
    exact beq_false_of_ne fun heq => h (heq ▸ hx)
  rw [lineEnd, lineEnd, List.findIdx?_append, hnone]
  cases b.findIdx? (· == 0x0a) with
  | none => simp
  | some index => simp; omega

/-- A first line ends in a line feed, or is all there is. -/
theorem getLast?_firstLine (bytes : List UInt8) :
    (firstLine bytes).getLast? = some 0x0a ↔ 0x0a ∈ bytes := by
  unfold firstLine lineEnd
  split
  · rename_i index hindex
    obtain ⟨hlt, heq, _⟩ := List.findIdx?_eq_some_iff_getElem.1 hindex
    have hmem : bytes[index] ∈ bytes := List.getElem_mem hlt
    rw [List.take_succ_eq_append_getElem hlt, List.getLast?_concat, eq_of_beq heq]
    rw [eq_of_beq heq] at hmem
    simp [hmem]
  · rename_i hnone
    have hmem : 0x0a ∉ bytes := by
      intro hmem
      simpa using List.findIdx?_eq_none_iff.1 hnone _ hmem
    rw [List.take_length]
    simp only [hmem, iff_false]
    intro hlast
    exact hmem (List.mem_of_getLast? hlast)

theorem firstLine_ne_nil {bytes : List UInt8} (h : bytes ≠ []) : firstLine bytes ≠ [] := by
  rw [firstLine, Ne, List.take_eq_nil_iff]
  exact not_or.2 ⟨(lineEnd_pos h).ne', h⟩

/-! ### Reading lines -/

theorem BufRead.length_consume {input : BufRead} (h : input.fillBuf ≠ []) :
    (input.consume (lineEnd input.fillBuf)).bytes.length < input.bytes.length := by
  have hle := lineEnd_le input.fillBuf
  have hpos := lineEnd_pos h
  have hlen : input.fillBuf.length ≤ input.bytes.length := by
    rw [BufRead.bytes_eq_fillBuf, List.length_append]
    omega
  rw [BufRead.bytes_consume hle, List.length_drop]
  omega

/-- The loop that collects the bytes of a line from the buffers. -/
def readLine (allocationLimit : ℕ) (bytes : List UInt8) (input : BufRead) :
    Result (List UInt8 × BufRead) :=
  let available := input.fillBuf
  if _h : available = [] then .ok (bytes, input)
  else
    let consumed := lineEnd available
    if allocationLimit < bytes.length + consumed then
      .error (invalidInput "jsonl row exceeds max uncompressed bytes per block")
    else
      let line := bytes ++ available.take consumed
      let rest := input.consume consumed
      if line.getLast? = some 0x0a then .ok (line, rest)
      else readLine allocationLimit line rest
termination_by input.bytes.length
decreasing_by exact BufRead.length_consume ‹_›

/-- Read one UTF-8 line without allowing an unterminated row to grow without bound. -/
def readBoundedJsonlLine (maxLineLen : ℕ) (input : BufRead) : Result (Option String × BufRead) := do
  let allocationLimit ← okOr (invalidInput "jsonl row limit is too large") (usizeAdd maxLineLen 1)
  let (bytes, input) ← readLine allocationLimit [] input
  match bytes with
  | [] => return (none, input)
  | _ :: _ => do
      let line ← okOr (invalidInput "jsonl row must be utf-8") (fromUtf8 bytes)
      return (some line, input)

/-- **How the input is buffered does not matter**: the loop reads the first line of the bytes that
are left, or finds it too long. -/
theorem readLine_eq {allocationLimit : ℕ} {bytes : List UInt8} {input : BufRead}
    (h : bytes.length ≤ allocationLimit) :
    (fun p => (p.1, p.2.bytes)) <$> readLine allocationLimit bytes input =
      if allocationLimit < bytes.length + lineEnd input.bytes then
        .error (invalidInput "jsonl row exceeds max uncompressed bytes per block")
      else .ok (bytes ++ firstLine input.bytes, input.bytes.drop (lineEnd input.bytes)) := by
  induction bytes, input using readLine.induct allocationLimit with
  | case1 bytes input available hnil =>
      have hbytes : input.bytes = [] := BufRead.fillBuf_eq_nil.1 hnil
      rw [readLine, dif_pos hnil, hbytes, if_neg (by simpa [lineEnd] using h)]
      simp [firstLine, hbytes]
  | case2 bytes input available hne consumed hlong =>
      rw [readLine, dif_neg hne, if_pos hlong, if_pos]
      · rfl
      · have hmono : lineEnd input.fillBuf ≤ lineEnd input.bytes := by
          rw [BufRead.bytes_eq_fillBuf input]
          by_cases hmem : 0x0a ∈ input.fillBuf
          · rw [lineEnd_append_of_mem hmem]
          · rw [lineEnd_append_of_not_mem hmem, lineEnd_of_not_mem hmem]
            exact Nat.le_add_right _ _
        exact lt_of_lt_of_le hlong (Nat.add_le_add_left hmono _)
  | case3 bytes input available hne consumed hfits line hlast =>
      have hmem : 0x0a ∈ input.fillBuf := by
        rw [← getLast?_firstLine, ← hlast]
        exact (List.getLast?_append_of_ne_nil _ (firstLine_ne_nil hne)).symm
      have hend : lineEnd input.bytes = lineEnd input.fillBuf := by
        rw [BufRead.bytes_eq_fillBuf input, lineEnd_append_of_mem hmem]
      have hfirst : firstLine input.bytes = firstLine input.fillBuf := by
        rw [firstLine, hend, BufRead.bytes_eq_fillBuf input,
          List.take_append_of_le_length (lineEnd_le _), firstLine]
      rw [readLine, dif_neg hne, if_neg hfits, if_pos hlast, hend, if_neg hfits, hfirst,
        ← BufRead.bytes_consume (lineEnd_le _)]
      rfl
  | case4 bytes input available hne consumed hfits line rest hlast ih =>
      -- the buffer holds no line feed: the line goes on in the next one
      have hmem : 0x0a ∉ input.fillBuf := by
        intro hmem
        refine hlast ?_
        rw [← (getLast?_firstLine input.fillBuf).2 hmem]
        exact List.getLast?_append_of_ne_nil _ (firstLine_ne_nil hne)
      have hconsumed : consumed = input.fillBuf.length := lineEnd_of_not_mem hmem
      have hline : line = bytes ++ input.fillBuf := by
        show bytes ++ input.fillBuf.take consumed = _
        rw [hconsumed, List.take_length]
      have hrest : rest.bytes = input.buffers.tail.flatten := by
        show (input.consume consumed).bytes = _
        rw [BufRead.bytes_consume (lineEnd_le _), lineEnd_of_not_mem hmem,
          BufRead.bytes_eq_fillBuf input, List.drop_left]
      have hbytes : input.bytes = input.fillBuf ++ rest.bytes := by
        rw [hrest, BufRead.bytes_eq_fillBuf input]
      have hend : lineEnd input.bytes = input.fillBuf.length + lineEnd rest.bytes := by
        rw [hbytes, lineEnd_append_of_not_mem hmem]
      have hfirst : firstLine input.bytes = input.fillBuf ++ firstLine rest.bytes := by
        rw [firstLine, hend, hbytes, List.take_length_add_append, firstLine]
      have hdrop : input.bytes.drop (lineEnd input.bytes) =
          rest.bytes.drop (lineEnd rest.bytes) := by
        rw [hend, hbytes, List.drop_length_add_append]
      have hlen : line.length = bytes.length + input.fillBuf.length := by
        rw [hline, List.length_append]
      have hroom : line.length ≤ allocationLimit := by
        rw [hlen, ← hconsumed]
        exact Nat.le_of_not_lt hfits
      rw [readLine, dif_neg hne, if_neg hfits, if_neg hlast, ih hroom, hlen, hdrop, hend, hfirst,
        hline, Nat.add_assoc, List.append_assoc]

theorem readLine_ok {allocationLimit : ℕ} {input : BufRead} {line rest : List UInt8} :
    (∃ input', readLine allocationLimit [] input = .ok (line, input') ∧ input'.bytes = rest) ↔
      lineEnd input.bytes ≤ allocationLimit ∧ line = firstLine input.bytes ∧
        rest = input.bytes.drop (lineEnd input.bytes) := by
  have heq := @readLine_eq allocationLimit [] input (Nat.zero_le _)
  rw [List.nil_append, List.length_nil, Nat.zero_add] at heq
  have hmap : (∃ input', readLine allocationLimit [] input = .ok (line, input') ∧
      input'.bytes = rest) ↔
      (fun p => (p.1, p.2.bytes)) <$> readLine allocationLimit [] input = .ok (line, rest) := by
    rw [map_ok]
    simp
  rw [hmap, heq]
  split
  · rename_i hlong
    simp [Nat.not_le.2 hlong]
  · rename_i hfits
    simp [Nat.not_lt.1 hfits, eq_comm]

/-- One call reads the first line, if it is not too long and is UTF-8. -/
theorem readBoundedJsonlLine_ok {maxLineLen : ℕ} {input : BufRead} {line : Option String}
    {rest : List UInt8} :
    (∃ input', readBoundedJsonlLine maxLineLen input = .ok (line, input') ∧
        input'.bytes = rest) ↔
      maxLineLen + 1 < wordSize ∧ lineEnd input.bytes ≤ maxLineLen + 1 ∧
        rest = input.bytes.drop (lineEnd input.bytes) ∧
        (input.bytes = [] ∧ line = none ∨
          input.bytes ≠ [] ∧ ∃ text, firstLine input.bytes = asBytes text ∧ line = some text) := by
  constructor
  · intro h
    obtain ⟨input', hread, hrest⟩ := h
    simp only [readBoundedJsonlLine, bind_ok, okOr_ok, usizeAdd_eq_some] at hread
    obtain ⟨_, ⟨hsize, rfl⟩, ⟨bytes, input''⟩, hline, hread⟩ := hread
    obtain ⟨hle, hfirst, hdrop⟩ := readLine_ok.1 ⟨input'', hline, rfl⟩
    cases bytes with
    | nil =>
        have hnil : input.bytes = [] := by
          by_contra hne
          exact firstLine_ne_nil hne hfirst.symm
        simp only [pure_ok, Prod.mk.injEq] at hread
        obtain ⟨rfl, rfl⟩ := hread
        exact ⟨hsize, hle, hrest ▸ hdrop, Or.inl ⟨hnil, rfl⟩⟩
    | cons b bytes =>
        have hne : input.bytes ≠ [] := by
          intro hnil
          rw [hnil] at hfirst
          cases hfirst
        simp only [bind_ok, okOr_ok, fromUtf8_eq_some, pure_ok, Prod.mk.injEq] at hread
        obtain ⟨text, htext, rfl, rfl⟩ := hread
        exact ⟨hsize, hle, hrest ▸ hdrop, Or.inr ⟨hne, text, hfirst ▸ htext, rfl⟩⟩
  · intro h
    obtain ⟨hsize, hle, rfl, hline⟩ := h
    obtain ⟨input', hread, hrest⟩ := readLine_ok.2 ⟨hle, rfl, rfl⟩
    refine ⟨input', ?_, hrest⟩
    simp only [readBoundedJsonlLine, bind_ok, okOr_ok, usizeAdd_eq_some]
    refine ⟨_, ⟨hsize, rfl⟩, _, hread, ?_⟩
    rcases hline with ⟨hnil, rfl⟩ | ⟨hne, text, htext, rfl⟩
    · rw [hnil]
      rfl
    · have hcons := firstLine_ne_nil hne
      rw [htext] at hcons ⊢
      obtain ⟨b, bytes, hbytes⟩ := List.exists_cons_of_ne_nil hcons
      have hutf8 : fromUtf8 (b :: bytes) = some text := hbytes ▸ fromUtf8_asBytes text
      simp [hbytes, hutf8, okOr]

/-! ### Going through the lines of an input -/

/-- `while let Some(line) = read_bounded_jsonl_line(..)? { .. }` around a method. -/
def forLines {σ : Type} (maxLineLen : ℕ) (body : String → EStateM CompactError σ Unit)
    (input : BufRead) : EStateM CompactError σ Unit :=
  match _h : readBoundedJsonlLine maxLineLen input with
  | .error e => throw e
  | .ok (none, _) => pure ()
  | .ok (some line, rest) => do
      body line
      forLines maxLineLen body rest
termination_by input.bytes.length
decreasing_by
  obtain ⟨_, _, hrest, hline⟩ := readBoundedJsonlLine_ok.1 ⟨rest, _h, rfl⟩
  rcases hline with ⟨_, hnone⟩ | ⟨hne, _⟩
  · cases hnone
  · have hpos := lineEnd_pos hne
    have hlen := List.length_pos_of_ne_nil hne
    rw [hrest, List.length_drop]
    omega

theorem forLines_error {σ : Type} {maxLineLen : ℕ} {body : String → EStateM CompactError σ Unit}
    {input : BufRead} {e : CompactError} (h : readBoundedJsonlLine maxLineLen input = .error e) :
    forLines maxLineLen body input = throw e := by
  rw [forLines]
  split <;> simp_all

theorem forLines_none {σ : Type} {maxLineLen : ℕ} {body : String → EStateM CompactError σ Unit}
    {input rest : BufRead} (h : readBoundedJsonlLine maxLineLen input = .ok (none, rest)) :
    forLines maxLineLen body input = pure () := by
  rw [forLines]
  split <;> simp_all

theorem forLines_some {σ : Type} {maxLineLen : ℕ} {body : String → EStateM CompactError σ Unit}
    {input rest : BufRead} {line : String}
    (h : readBoundedJsonlLine maxLineLen input = .ok (some line, rest)) :
    forLines maxLineLen body input = (do body line; forLines maxLineLen body rest) := by
  rw [forLines]
  split <;> simp_all

/-- The lines of some bytes, each with its line feed. -/
def cutLines (bytes : List UInt8) : List (List UInt8) :=
  if _h : bytes = [] then []
  else firstLine bytes :: cutLines (bytes.drop (lineEnd bytes))
termination_by bytes.length
decreasing_by
  have hpos := lineEnd_pos _h
  have hlen := List.length_pos_of_ne_nil _h
  rw [List.length_drop]
  omega

theorem flatten_cutLines (bytes : List UInt8) : (cutLines bytes).flatten = bytes := by
  induction bytes using cutLines.induct with
  | case1 =>
      rw [cutLines, dif_pos rfl]
      rfl
  | case2 bytes h ih =>
      rw [cutLines, dif_neg h, List.flatten_cons, ih]
      exact List.take_append_drop _ _

/-- `lines` is the text of an input, cut into lines: all of it is UTF-8, and no line is too long. -/
structure InputLines (maxLineLen : ℕ) (bytes : List UInt8) (lines : List String) : Prop where
  size : maxLineLen + 1 < wordSize
  cut : cutLines bytes = lines.map asBytes
  bounded : ∀ line ∈ lines, line.utf8ByteSize ≤ maxLineLen + 1

/-- A text is cut into lines in one way, whatever the limit. -/
theorem InputLines.unique {maxLineLen maxLineLen' : ℕ} {bytes : List UInt8}
    {lines lines' : List String} (h : InputLines maxLineLen bytes lines)
    (h' : InputLines maxLineLen' bytes lines') : lines = lines' :=
  List.map_injective_iff.2 (fun _ _ => asBytes_inj) (h.cut.symm.trans h'.cut)

theorem inputLines_nil {maxLineLen : ℕ} {lines : List String} :
    InputLines maxLineLen [] lines ↔ maxLineLen + 1 < wordSize ∧ lines = [] := by
  constructor
  · intro h
    have hcut := h.cut
    rw [cutLines, dif_pos rfl] at hcut
    exact ⟨h.size, List.map_eq_nil_iff.1 hcut.symm⟩
  · intro h
    obtain ⟨hsize, rfl⟩ := h
    exact ⟨hsize, by rw [cutLines, dif_pos rfl, List.map_nil], by simp⟩

theorem inputLines_cons {maxLineLen : ℕ} {bytes : List UInt8} {line : String}
    (h : bytes ≠ []) (hline : firstLine bytes = asBytes line) (hle : lineEnd bytes ≤ maxLineLen + 1)
    {lines : List String} :
    InputLines maxLineLen bytes lines ↔
      ∃ lines', lines = line :: lines' ∧
        InputLines maxLineLen (bytes.drop (lineEnd bytes)) lines' := by
  have hcut : cutLines bytes = asBytes line :: cutLines (bytes.drop (lineEnd bytes)) := by
    rw [cutLines, dif_neg h, hline]
  have hlen : line.utf8ByteSize ≤ maxLineLen + 1 := by
    rw [← length_asBytes, ← hline, firstLine, List.length_take]
    exact (Nat.min_le_left _ _).trans hle
  constructor
  · intro hlines
    have hmap := hlines.cut
    rw [hcut] at hmap
    obtain ⟨line', lines', rfl, hhead, htail⟩ := List.map_eq_cons_iff.1 hmap.symm
    rw [asBytes_inj hhead]
    exact ⟨lines', rfl, hlines.size, htail.symm,
      fun l hl => hlines.bounded l (List.mem_cons_of_mem _ hl)⟩
  · intro hlines
    obtain ⟨lines', rfl, hlines'⟩ := hlines
    refine ⟨hlines'.size, by rw [hcut, hlines'.cut, List.map_cons], fun l hl => ?_⟩
    rcases List.mem_cons.1 hl with rfl | hl
    · exact hlen
    · exact hlines'.bounded l hl

/-- A text is cut into the lines it is put together from. -/
theorem inputLines_join {maxLineLen : ℕ} {lines : List String} (hsize : maxLineLen + 1 < wordSize)
    (hline : ∀ line ∈ lines, ∃ text, line = text ++ "\n" ∧ 0x0a ∉ asBytes text)
    (hle : ∀ line ∈ lines, line.utf8ByteSize ≤ maxLineLen + 1) :
    InputLines maxLineLen (asBytes (String.join lines)) lines := by
  induction lines with
  | nil => exact inputLines_nil.2 ⟨hsize, rfl⟩
  | cons line lines ih =>
      obtain ⟨text, htext, hfeed⟩ := hline line List.mem_cons_self
      have hbytes : asBytes line = asBytes text ++ [0x0a] := by
        rw [htext, asBytes_append]
        rfl
      have hend (rest : List UInt8) : lineEnd (asBytes line ++ rest) = (asBytes line).length := by
        rw [hbytes, List.append_assoc, lineEnd_append_of_not_mem hfeed, List.length_append]
        rfl
      have hne : asBytes line ++ asBytes (String.join lines) ≠ [] := by simp [hbytes]
      have hfirst : firstLine (asBytes line ++ asBytes (String.join lines)) = asBytes line := by
        rw [firstLine, hend, List.take_left]
      rw [String.join_cons, asBytes_append]
      refine (inputLines_cons hne hfirst ?_).2 ⟨lines, rfl, ?_⟩
      · rw [hend]
        exact hle line List.mem_cons_self
      · rw [hend, List.drop_left]
        exact ih (fun l hl => hline l (List.mem_cons_of_mem _ hl))
          fun l hl => hle l (List.mem_cons_of_mem _ hl)

/-- Where all lines can be read, the next one can. -/
theorem InputLines.read_first {maxLineLen : ℕ} {input : BufRead} {lines : List String}
    (h : InputLines maxLineLen input.bytes lines) :
    ∃ line rest, readBoundedJsonlLine maxLineLen input = .ok (line, rest) := by
  by_cases hnil : input.bytes = []
  · obtain ⟨rest, hread, _⟩ := readBoundedJsonlLine_ok.2
      ⟨h.size, by rw [hnil]; exact Nat.zero_le _, rfl, Or.inl ⟨hnil, rfl⟩⟩
    exact ⟨none, rest, hread⟩
  · have hcut := h.cut
    rw [cutLines, dif_neg hnil] at hcut
    obtain ⟨line, lines', rfl, hline, _⟩ := List.map_eq_cons_iff.1 hcut.symm
    have hle : lineEnd input.bytes ≤ maxLineLen + 1 := by
      have hlen := h.bounded line List.mem_cons_self
      rwa [← length_asBytes, hline, firstLine, List.length_take,
        Nat.min_eq_left (lineEnd_le _)] at hlen
    obtain ⟨rest, hread, _⟩ := readBoundedJsonlLine_ok.2
      ⟨h.size, hle, rfl, Or.inr ⟨hnil, line, hline.symm, rfl⟩⟩
    exact ⟨some line, rest, hread⟩

/-- **A loop over the lines of an input goes through the lines of its bytes**, however the input is
buffered. -/
theorem forLines_ok {σ : Type} {maxLineLen : ℕ} {body : String → EStateM CompactError σ Unit}
    {input : BufRead} {s s' : σ} {u : Unit} :
    forLines maxLineLen body input s = .ok u s' ↔
      ∃ lines, InputLines maxLineLen input.bytes lines ∧ lines.forM body s = .ok () s' := by
  induction hn : input.bytes.length using Nat.strong_induction_on generalizing input s with
  | _ n ih =>
      subst hn
      rcases hread : readBoundedJsonlLine maxLineLen input with e | ⟨_ | line, rest⟩
      · -- the first line cannot be read: it is too long, or not text
        rw [forLines_error hread, Method.throw_ok, false_iff]
        intro h
        obtain ⟨lines, hlines, _⟩ := h
        have hcall := hlines.read_first
        rw [hread] at hcall
        simp at hcall
      · -- the end of the input
        obtain ⟨hsize, _, _, hline⟩ := readBoundedJsonlLine_ok.1 ⟨rest, hread, rfl⟩
        rcases hline with ⟨hnil, _⟩ | ⟨_, _, _, hsome⟩
        · rw [forLines_none hread, hnil, Method.pure_ok]
          simp [inputLines_nil, hsize, eq_comm]
        · cases hsome
      · -- a line, and the input behind it
        obtain ⟨hsize, hle, hrest, hline⟩ := readBoundedJsonlLine_ok.1 ⟨rest, hread, rfl⟩
        rcases hline with ⟨_, hnone⟩ | ⟨hne, text, htext, hsome⟩
        · cases hnone
        · cases hsome
          have hlt : rest.bytes.length < input.bytes.length := by
            have hpos := lineEnd_pos hne
            have hlen := List.length_pos_of_ne_nil hne
            rw [hrest, List.length_drop]
            omega
          rw [forLines_some hread, Method.bind_ok]
          simp only [inputLines_cons hne htext hle, ← hrest, ih _ hlt rfl]
          constructor
          · intro h
            obtain ⟨_, s₁, hbody, lines, hlines, hloop⟩ := h
            exact ⟨line :: lines, ⟨lines, rfl, hlines⟩, Method.forM_cons.2 ⟨s₁, hbody, hloop⟩⟩
          · intro h
            obtain ⟨_, ⟨lines, rfl, hlines⟩, hloop⟩ := h
            obtain ⟨s₁, hbody, hloop⟩ := Method.forM_cons.1 hloop
            exact ⟨(), s₁, hbody, lines, hlines, hloop⟩

/-! ### Calls on an input -/

/-- The results of calls on an input that is left with some bytes, up to the call that returns no
line or fails.  From one call to the next the input may buffer its bytes anew. -/
inductive LineCalls (maxLineLen : ℕ) : List UInt8 → List (Result (Option String)) → Prop
  | failed {input : BufRead} {e : CompactError} :
      readBoundedJsonlLine maxLineLen input = .error e → LineCalls maxLineLen input.bytes [.error e]
  | done {input rest : BufRead} :
      readBoundedJsonlLine maxLineLen input = .ok (none, rest) →
        LineCalls maxLineLen input.bytes [.ok none]
  | line {input rest : BufRead} {text : String} {results : List (Result (Option String))} :
      readBoundedJsonlLine maxLineLen input = .ok (some text, rest) →
        LineCalls maxLineLen rest.bytes results →
          LineCalls maxLineLen input.bytes (.ok (some text) :: results)

/-- What a call makes of a line. -/
def lineResult (maxLineLen : ℕ) (line : List UInt8) : Result String :=
  if maxLineLen + 1 < line.length then
    .error (invalidInput "jsonl row exceeds max uncompressed bytes per block")
  else okOr (invalidInput "jsonl row must be utf-8") (fromUtf8 line)

/-- What calls make of some lines. -/
def lineResults (maxLineLen : ℕ) : List (List UInt8) → List (Result (Option String))
  | [] => [.ok none]
  | line :: lines =>
      match lineResult maxLineLen line with
      | .error e => [.error e]
      | .ok text => .ok (some text) :: lineResults maxLineLen lines

theorem length_firstLine (bytes : List UInt8) : (firstLine bytes).length = lineEnd bytes := by
  rw [firstLine, List.length_take, Nat.min_eq_left (lineEnd_le _)]

/-- A line has no line feed before its end. -/
theorem not_mem_dropLast_firstLine (bytes : List UInt8) : 0x0a ∉ (firstLine bytes).dropLast := by
  unfold firstLine lineEnd
  split
  · rename_i index hindex
    obtain ⟨hlt, -, hbefore⟩ := List.findIdx?_eq_some_iff_getElem.1 hindex
    rw [List.take_succ_eq_append_getElem hlt, List.dropLast_concat]
    intro hmem
    obtain ⟨i, hi, heq⟩ := List.getElem_of_mem hmem
    rw [List.getElem_take] at heq
    rw [List.length_take] at hi
    exact hbefore i (by omega) (by rw [heq]; rfl)
  · rename_i hnone
    intro hmem
    have hmem := List.mem_of_mem_take (List.dropLast_sublist _ |>.mem hmem)
    simpa using List.findIdx?_eq_none_iff.1 hnone _ hmem

/-- **How bytes are cut into lines**: each line ends behind its only line feed; the last one may
do without. -/
theorem cutLines_lines (bytes : List UInt8) :
    (∀ line ∈ cutLines bytes, line ≠ [] ∧ 0x0a ∉ line.dropLast) ∧
      ∀ line ∈ (cutLines bytes).dropLast, line.getLast? = some 0x0a := by
  induction bytes using cutLines.induct with
  | case1 =>
      rw [cutLines, dif_pos rfl]
      simp
  | case2 bytes h ih =>
      rw [cutLines, dif_neg h]
      constructor
      · intro line hline
        rcases List.mem_cons.1 hline with rfl | hline
        · exact ⟨firstLine_ne_nil h, not_mem_dropLast_firstLine bytes⟩
        · exact ih.1 line hline
      · intro line hline
        by_cases hrest : bytes.drop (lineEnd bytes) = []
        · rw [hrest, cutLines, dif_pos rfl] at hline
          cases hline
        · have hcons : cutLines (bytes.drop (lineEnd bytes)) ≠ [] := by
            rw [cutLines, dif_neg hrest]
            exact List.cons_ne_nil _ _
          rw [List.dropLast_cons_of_ne_nil hcons] at hline
          rcases List.mem_cons.1 hline with rfl | hline
          · -- what is behind a line shows that it ends in a line feed
            rw [getLast?_firstLine]
            by_contra hmem
            rw [lineEnd_of_not_mem hmem, List.drop_length] at hrest
            exact hrest rfl
          · exact ih.2 line hline

/-- At the end of the bytes a call returns no line. -/
theorem readBoundedJsonlLine_nil {maxLineLen : ℕ} {input : BufRead}
    (hmax : maxLineLen + 1 < wordSize) (hnil : input.bytes = []) :
    Prod.fst <$> readBoundedJsonlLine maxLineLen input = .ok none := by
  obtain ⟨rest, hread, -⟩ := readBoundedJsonlLine_ok.2
    ⟨hmax, by rw [hnil]; exact Nat.zero_le _, rfl, Or.inl ⟨hnil, rfl⟩⟩
  rw [hread]
  rfl

/-- Before the end of the bytes a call makes what it makes of the first line. -/
theorem readBoundedJsonlLine_cons {maxLineLen : ℕ} {input : BufRead}
    (hmax : maxLineLen + 1 < wordSize) (hne : input.bytes ≠ []) :
    Prod.fst <$> readBoundedJsonlLine maxLineLen input =
      some <$> lineResult maxLineLen (firstLine input.bytes) := by
  have hline := @readLine_eq (maxLineLen + 1) [] input (Nat.zero_le _)
  rw [List.nil_append, List.length_nil, Nat.zero_add] at hline
  rw [readBoundedJsonlLine, usizeAdd, if_pos hmax, lineResult, length_firstLine]
  simp only [okOr, bind, Except.bind]
  rcases hread : readLine (maxLineLen + 1) [] input with e | ⟨line, rest⟩
  · rw [hread] at hline
    by_cases hlong : maxLineLen + 1 < lineEnd input.bytes
    · rw [if_pos hlong] at hline ⊢
      cases hline
      rfl
    · rw [if_neg hlong] at hline
      cases hline
  · rw [hread] at hline
    by_cases hlong : maxLineLen + 1 < lineEnd input.bytes
    · rw [if_pos hlong] at hline
      cases hline
    · rw [if_neg hlong] at hline ⊢
      obtain ⟨rfl, -⟩ := Prod.mk.inj (Except.ok.inj hline)
      obtain ⟨b, tail, hcons⟩ := List.exists_cons_of_ne_nil (firstLine_ne_nil hne)
      rw [hcons]
      dsimp only
      cases fromUtf8 (b :: tail) <;> rfl

/-- A line that a call returns, and the bytes that it leaves, are the bytes before the call. -/
theorem readBoundedJsonlLine_bytes {maxLineLen : ℕ} {input rest : BufRead} {text : String}
    (h : readBoundedJsonlLine maxLineLen input = .ok (some text, rest)) :
    input.bytes ≠ [] ∧ firstLine input.bytes = asBytes text ∧
      rest.bytes = input.bytes.drop (lineEnd input.bytes) := by
  obtain ⟨-, -, hrest, hline⟩ := readBoundedJsonlLine_ok.1 ⟨rest, h, rfl⟩
  rcases hline with ⟨-, hnone⟩ | ⟨hne, text', htext, hsome⟩
  · cases hnone
  · cases hsome
    exact ⟨hne, htext, hrest⟩

/-- Calls return what the lines say. -/
theorem LineCalls.results_eq {maxLineLen : ℕ} {bytes : List UInt8}
    {results : List (Result (Option String))} (hmax : maxLineLen + 1 < wordSize)
    (h : LineCalls maxLineLen bytes results) :
    results = lineResults maxLineLen (cutLines bytes) := by
  induction h with
  | @failed input e hread =>
      by_cases hnil : input.bytes = []
      · have hcall := readBoundedJsonlLine_nil hmax hnil
        rw [hread] at hcall
        cases hcall
      · have hcall := readBoundedJsonlLine_cons hmax hnil
        rw [hread] at hcall
        rw [cutLines, dif_neg hnil, lineResults]
        cases hline : lineResult maxLineLen (firstLine input.bytes) with
        | error e' =>
            rw [hline] at hcall
            cases hcall
            rfl
        | ok text =>
            rw [hline] at hcall
            cases hcall
  | @done input rest hread =>
      have hnil : input.bytes = [] := by
        obtain ⟨-, -, -, hline⟩ := readBoundedJsonlLine_ok.1 ⟨rest, hread, rfl⟩
        rcases hline with ⟨hnil, -⟩ | ⟨-, _, -, hsome⟩
        · exact hnil
        · cases hsome
      rw [hnil, cutLines, dif_pos rfl, lineResults]
  | @line input rest text results hread _ ih =>
      obtain ⟨hne, -, hrest⟩ := readBoundedJsonlLine_bytes hread
      have hcall := readBoundedJsonlLine_cons hmax hne
      rw [hread] at hcall
      rw [cutLines, dif_neg hne, lineResults, ← hrest]
      cases hline : lineResult maxLineLen (firstLine input.bytes) with
      | error e =>
          rw [hline] at hcall
          cases hcall
      | ok text' =>
          rw [hline] at hcall
          cases hcall
          rw [ih]

/-- Calls come to an end. -/
theorem exists_lineCalls (maxLineLen : ℕ) (bytes : List UInt8) :
    ∃ results, LineCalls maxLineLen bytes results := by
  induction hn : bytes.length using Nat.strong_induction_on generalizing bytes with
  | _ n ih =>
      subst hn
      rw [← BufRead.bytes_cursor bytes]
      rcases hread : readBoundedJsonlLine maxLineLen (BufRead.cursor bytes) with
        e | ⟨_ | text, rest⟩
      · exact ⟨_, .failed hread⟩
      · exact ⟨_, .done hread⟩
      · obtain ⟨hne, -, hrest⟩ := readBoundedJsonlLine_bytes hread
        rw [BufRead.bytes_cursor] at hne hrest
        have hlt : rest.bytes.length < bytes.length := by
          have hpos := lineEnd_pos hne
          have hlen := List.length_pos_of_ne_nil hne
          rw [hrest, List.length_drop]
          omega
        obtain ⟨results, hcalls⟩ := ih _ hlt rest.bytes rfl
        exact ⟨_, .line hread hcalls⟩

/-- **Calls return the lines of the bytes**, up to the first one that is too long or is not text:
however an input hands out its bytes, these are the results, and after each line the input is left
with the bytes behind it. -/
theorem lineCalls_iff {maxLineLen : ℕ} {bytes : List UInt8}
    {results : List (Result (Option String))} (hmax : maxLineLen + 1 < wordSize) :
    (LineCalls maxLineLen bytes results ↔ results = lineResults maxLineLen (cutLines bytes)) ∧
      (∀ input text rest, readBoundedJsonlLine maxLineLen input = .ok (some text, rest) →
        input.bytes = asBytes text ++ rest.bytes) ∧
      (cutLines bytes).flatten = bytes ∧
      (∀ line ∈ cutLines bytes, line ≠ [] ∧ 0x0a ∉ line.dropLast) ∧
      ∀ line ∈ (cutLines bytes).dropLast, line.getLast? = some 0x0a := by
  refine ⟨⟨fun h => h.results_eq hmax, ?_⟩, ?_, flatten_cutLines bytes, cutLines_lines bytes⟩
  · rintro rfl
    obtain ⟨results, hcalls⟩ := exists_lineCalls maxLineLen bytes
    rwa [← hcalls.results_eq hmax]
  · intro input text rest hread
    obtain ⟨-, hline, hrest⟩ := readBoundedJsonlLine_bytes hread
    rw [hrest, ← hline, firstLine, List.take_append_drop]

/-- A line that is long enough to be read, and one that is not. -/
theorem lineCalls_iff_two_lines :
    LineCalls 2 [0x61, 0x62, 0x0a, 0x61, 0x62, 0x63, 0x64]
      [.ok (some "ab\n"),
        .error (invalidInput "jsonl row exceeds max uncompressed bytes per block")] :=
  (lineCalls_iff (by decide)).1.2 (by decide +kernel)

/-! ### A small table -/

theorem idInput_nonempty : ∀ buffer ∈ [asBytes Reference.idLines], buffer ≠ [] := by
  decide +kernel

/-- The lines of a small table. -/
def idInput : BufRead := ⟨[asBytes Reference.idLines], idInput_nonempty⟩

/-- The rows of the small table. -/
def idRows : List String := ["\x7b\"id\":1\x7d\n", "\x7b\"id\":2\x7d\n"]

theorem inputLines_idInput {maxLineLen : ℕ} (hlen : 9 ≤ maxLineLen)
    (hsize : maxLineLen + 1 < wordSize) : InputLines maxLineLen idInput.bytes idRows := by
  have hbytes : idInput.bytes = asBytes (String.join idRows) := by decide +kernel
  rw [hbytes]
  refine inputLines_join hsize ?_ fun line hline => ?_
  · intro line hline
    rcases List.mem_pair.1 hline with rfl | rfl
    · exact ⟨"\x7b\"id\":1\x7d", rfl, by decide +kernel⟩
    · exact ⟨"\x7b\"id\":2\x7d", rfl, by decide +kernel⟩
  · have hnine : ∀ line ∈ idRows, line.utf8ByteSize ≤ 9 := by decide +kernel
    exact (hnine line hline).trans (hlen.trans (Nat.le_succ _))

theorem idInput_lines {maxLineLen : ℕ} {lines : List String}
    (h : InputLines maxLineLen idInput.bytes lines) : lines = idRows :=
  h.unique (inputLines_idInput (le_refl 9) (by decide))

end CompactCore.Streaming
