/-
**Search dictionaries from text.**

`search-encode` reads a text with a line for each document of a term: the term, the document and the
positions, separated by white space.  Lines may come in any order, and blank lines and comments are
skipped.  The dictionary that it writes is then asked for terms and documents.

Main definitions:

* `CompactCore.Cli.parsePositions`, `CompactCore.Cli.parseLine`,
  `CompactCore.Cli.parseSearchPostings` — reading the text;
* `CompactCore.Cli.joinU64s`, `CompactCore.Cli.searchLine` — a line of it.

Main results:

* `CompactCore.Cli.parseSearchPostings_render` — **the text says what the dictionary holds**: the
  lines of some entries, in any order and among any notes, are read as these entries;
* `CompactCore.Cli.searchEncode_seek` — **a search finds what the text says**, no more and no less.
-/

import CompactCore.Cli.Arguments
import CompactCore.Search.Query

set_option relaxedAutoImplicit false
set_option autoImplicit false

namespace CompactCore.Cli

open Wire Search
open scoped Wire.Words

/-! ### Lines -/

/-- `str::trim`. -/
def trim (line : String) : String :=
  String.ofList (((line.toList.dropWhile isWhitespace).reverse.dropWhile isWhitespace).reverse)

/-- `str::split_whitespace`. -/
def splitWhitespace (line : String) : List String :=
  ((line.toList.splitOnP isWhitespace).filter (· ≠ [])).map String.ofList

def parsePositions (input : String) : Except Failure (List UInt64) :=
  if input = "-" then .ok []
  else (input.toList.splitOn ',').mapM fun value =>
    withContext s!"invalid position {String.ofList value}" (parseU64 (String.ofList value))

/-- The third field of a line, if it has one. -/
def optionalPositions (number : ℕ) : List String → Except Failure (List UInt64)
  | [] => .ok []
  | positions :: _ =>
      withContext s!"line {number} has invalid positions" (parsePositions positions)

/-- One turn of the loop of `parse_search_postings`: a line without a posting is skipped. -/
def parseLine (number : ℕ) (line : String) : Except Failure (Option (String × Posting)) :=
  let line := trim line
  if line = "" ∨ line.toList.head? = some '#' then .ok none
  else
    match splitWhitespace line with
    | [] => .error (.message s!"line {number} is missing term")
    | [_] => .error (.message s!"line {number} is missing doc_id")
    | term :: docId :: rest => do
        let docId ← withContext s!"line {number} has invalid doc_id" (parseU64 docId)
        let positions ← optionalPositions number rest
        if rest.length > 1 then .error (.message s!"line {number} has too many fields")
        else .ok (some (term, ⟨docId, positions⟩))

/-- `terms.entry(term).or_default().push(posting)` of an ordered map. -/
def pushPosting (term : String) (posting : Posting) : List TermPostingList → List TermPostingList
  | [] => [⟨term, [posting]⟩]
  | entry :: entries =>
      if term < entry.term then ⟨term, [posting]⟩ :: entry :: entries
      else if term = entry.term then ⟨entry.term, entry.postings ++ [posting]⟩ :: entries
      else entry :: pushPosting term posting entries

/-- The loop over the lines, from one with this index on. -/
def parseLines : ℕ → List String → List TermPostingList → Except Failure (List TermPostingList)
  | _, [], terms => .ok terms
  | index, line :: rest, terms => do
      match ← parseLine (index + 1) line with
      | none => parseLines (index + 1) rest terms
      | some (term, posting) => parseLines (index + 1) rest (pushPosting term posting terms)

/-- `postings.sort_by_key(|posting| posting.doc_id)`. -/
def sortPostings (entry : TermPostingList) : TermPostingList :=
  ⟨entry.term, entry.postings.mergeSort fun one two => one.docId ≤ two.docId⟩

def parseSearchPostings (input : String) : Except Failure (List TermPostingList) := do
  let terms ← parseLines 0 (lines input) []
  return terms.map sortPostings

/-! ### Writing a line -/

def joinU64s (values : List UInt64) : String :=
  String.ofList ([','].intercalate (values.map fun value => (toString value).toList))

/-- The positions on a line. -/
def positionsText (positions : List UInt64) : String :=
  if positions = [] then "-" else joinU64s positions

/-- The line of a posting. -/
def searchLine (term : String) (posting : Posting) : String :=
  s!"{term} {posting.docId} {positionsText posting.positions}"

/-! ### Lines come back -/

theorem not_isWhitespace_of_isDigit {c : Char} (hc : c.isDigit = true) :
    isWhitespace c = false := by
  have hbounds : 48 ≤ c.toNat ∧ c.toNat ≤ 57 := by
    simpa [Char.isDigit, UInt32.le_iff_toNat_le] using hc
  obtain ⟨hlow, hhigh⟩ := hbounds
  simp only [isWhitespace, Bool.or_eq_false_iff, Bool.and_eq_false_iff, beq_eq_false_iff_ne,
    decide_eq_false_iff_not]
  omega

theorem joinU64s_toList (values : List UInt64) :
    (joinU64s values).toList =
      [','].intercalate (values.map fun value => (toString value).toList) :=
  String.toList_ofList

/-- A character of printed numbers is a digit or a comma. -/
theorem mem_joinU64s {values : List UInt64} {c : Char} (hc : c ∈ (joinU64s values).toList) :
    c.isDigit = true ∨ c = ',' := by
  rw [joinU64s_toList] at hc
  induction values with
  | nil => cases hc
  | cons value values ih =>
      cases values with
      | nil =>
          simp only [List.map_cons, List.map_nil, List.intercalate_singleton] at hc
          exact .inl (isDigit_of_mem_toString hc)
      | cons next values =>
          simp only [List.map_cons, List.intercalate_cons_cons, List.mem_append] at hc ih
          rcases hc with (hc | hc) | hc
          · exact .inl (isDigit_of_mem_toString hc)
          · exact .inr (List.mem_singleton.1 hc)
          · exact ih hc

theorem parsePositions_joinU64s {values : List UInt64} (hvalues : values ≠ []) :
    parsePositions (joinU64s values) = .ok values := by
  have hminus : joinU64s values ≠ "-" := by
    intro heq
    have hmem : '-' ∈ (joinU64s values).toList := by
      rw [heq]
      decide
    rcases mem_joinU64s hmem with hdigit | hcomma
    · exact absurd hdigit (by decide)
    · exact absurd hcomma (by decide)
  rw [parsePositions, if_neg hminus, joinU64s_toList, List.splitOn_intercalate]
  · rw [mapM_ok, List.forall₂_map_left_iff, List.forall₂_same]
    intro value _
    rw [String.ofList_toList, parseU64_toString]
    rfl
  · intro text htext
    obtain ⟨value, _, rfl⟩ := List.mem_map.1 htext
    intro hcomma
    exact absurd (isDigit_of_mem_toString hcomma) (by decide)
  · simpa using hvalues

/-- A term that is written on a line: one word that does not start a comment. -/
structure IsWord (term : String) : Prop where
  ne_nil : term.toList ≠ []
  word : ∀ c ∈ term.toList, isWhitespace c = false
  no_note : term.toList.head? ≠ some '#'

theorem parsePositions_text (positions : List UInt64) :
    parsePositions (positionsText positions) = .ok positions := by
  rw [positionsText]
  split
  next hnil => rw [hnil, parsePositions, if_pos rfl]
  next hne => exact parsePositions_joinU64s hne

theorem positionsText_word (positions : List UInt64) :
    (positionsText positions).toList ≠ [] ∧
      ∀ c ∈ (positionsText positions).toList, isWhitespace c = false := by
  rw [positionsText]
  split
  next =>
    refine ⟨List.cons_ne_nil _ _, ?_⟩
    intro c hc
    rw [List.mem_singleton.1 hc]
    rfl
  next hne =>
    refine ⟨?_, ?_⟩
    · rw [joinU64s_toList]
      cases positions with
      | nil => exact absurd rfl hne
      | cons value values =>
          have hvalue := toString_ne_nil value
          cases values with
          | nil => simpa only [List.map_cons, List.map_nil, List.intercalate_singleton] using hvalue
          | cons next values =>
              rw [List.map_cons, List.map_cons, List.intercalate_cons_cons, List.append_assoc]
              exact List.append_ne_nil_of_left_ne_nil hvalue _
    · intro c hc
      rcases mem_joinU64s hc with hdigit | rfl
      · exact not_isWhitespace_of_isDigit hdigit
      · decide

theorem searchLine_toList (term : String) (posting : Posting) :
    (searchLine term posting).toList
      = term.toList ++ ' ' :: ((toString posting.docId).toList ++
          ' ' :: (positionsText posting.positions).toList) := by
  simp [searchLine, String.toList_append, toString]

/-- Nothing is trimmed off a line without white space at its ends. -/
theorem trim_eq {line : String} {first last : Char} {front back : List Char}
    (hfirst : line.toList = first :: back) (hlast : line.toList = front ++ [last])
    (hfirstWord : isWhitespace first = false) (hlastWord : isWhitespace last = false) :
    trim line = line := by
  have hleft : line.toList.dropWhile isWhitespace = line.toList := by
    rw [hfirst, List.dropWhile_cons_of_neg (by rw [hfirstWord]; exact Bool.false_ne_true)]
  have hright : line.toList.reverse.dropWhile isWhitespace = line.toList.reverse := by
    rw [hlast, List.reverse_concat,
      List.dropWhile_cons_of_neg (by rw [hlastWord]; exact Bool.false_ne_true)]
  rw [trim, hleft, hright, List.reverse_reverse, String.ofList_toList]

theorem splitWhitespace_searchLine {term : String} (hterm : IsWord term) (posting : Posting) :
    splitWhitespace (searchLine term posting)
      = [term, toString posting.docId, positionsText posting.positions] := by
  obtain ⟨hne, hword⟩ := positionsText_word posting.positions
  have hdoc : ∀ c ∈ (toString posting.docId).toList, isWhitespace c = false := by
    intro c hc
    exact not_isWhitespace_of_isDigit (isDigit_of_mem_toString hc)
  rw [splitWhitespace, searchLine_toList,
    List.splitOnP_append_cons_of_forall_mem hterm.word ' ' rfl,
    List.splitOnP_append_cons_of_forall_mem hdoc ' ' rfl, List.splitOnP_eq_singleton hword]
  rw [List.filter_eq_self.2]
  · simp only [List.map_cons, List.map_nil, String.ofList_toList]
  · intro word hmem
    rw [decide_eq_true_eq]
    rcases List.mem_cons.1 hmem with rfl | hmem
    · exact hterm.ne_nil
    rcases List.mem_cons.1 hmem with rfl | hmem
    · exact toString_ne_nil _
    · rw [List.mem_singleton.1 hmem]
      exact hne

/-- **The line of a posting says that posting.** -/
theorem parseLine_searchLine {term : String} (hterm : IsWord term) (posting : Posting)
    (number : ℕ) :
    parseLine number (searchLine term posting) = .ok (some (term, posting)) := by
  obtain ⟨hne, hword⟩ := positionsText_word posting.positions
  obtain ⟨first, rest, hfirst⟩ := List.exists_cons_of_ne_nil hterm.ne_nil
  obtain ⟨front, last, hlast⟩ := (List.eq_nil_or_concat' _).resolve_left hne
  have hfirstWord : isWhitespace first = false := hterm.word first (by simp [hfirst])
  have hlastWord : isWhitespace last = false := hword last (by simp [hlast])
  have hhead := searchLine_toList term posting
  rw [hfirst, List.cons_append] at hhead
  have htail := searchLine_toList term posting
  rw [hlast, ← List.cons_append, ← List.append_assoc, ← List.cons_append,
    ← List.append_assoc] at htail
  have htrim := trim_eq hhead htail hfirstWord hlastWord
  have hread :
      ¬(searchLine term posting = "" ∨ (searchLine term posting).toList.head? = some '#') := by
    rintro (hempty | hnote)
    · rw [hempty] at hhead
      cases hhead
    · rw [hhead, List.head?_cons] at hnote
      exact hterm.no_note (by rw [hfirst, List.head?_cons, hnote])
  simp only [parseLine, htrim, if_neg hread, splitWhitespace_searchLine hterm, parseU64_toString,
    parsePositions_text, optionalPositions, withContext]
  rfl

/-! ### Grouping by term -/

/-- The postings that some lines give to a term, in their order. -/
def postedTo (posted : List (String × Posting)) (term : String) : List Posting :=
  (posted.filter fun line => line.1 = term).map Prod.snd

/-- The entries of an ordered map that the lines so far have filled. -/
structure Grouped (posted : List (String × Posting)) (terms : List TermPostingList) : Prop where
  order : TermsInOrder (terms.map TermPostingList.term)
  filled : ∀ entry ∈ terms, entry.postings ≠ []
  groups : ∀ term, postingsOf terms term = postedTo posted term

theorem mem_pushPosting {term name : String} {posting : Posting} {terms : List TermPostingList} :
    name ∈ (pushPosting term posting terms).map TermPostingList.term ↔
      name = term ∨ name ∈ terms.map TermPostingList.term := by
  induction terms with
  | nil => simp [pushPosting]
  | cons entry terms ih =>
      rw [pushPosting]
      split
      · simp
      split
      next heq => simp [heq]
      next =>
        rw [List.map_cons, List.mem_cons, ih, List.map_cons, List.mem_cons]
        exact or_left_comm

theorem pairwise_pushPosting {term : String} {posting : Posting} {terms : List TermPostingList}
    (h : (terms.map TermPostingList.term).Pairwise (· < ·)) :
    ((pushPosting term posting terms).map TermPostingList.term).Pairwise (· < ·) := by
  induction terms with
  | nil => simp [pushPosting]
  | cons entry terms ih =>
      rw [List.map_cons, List.pairwise_cons] at h
      rw [pushPosting]
      split
      next hlt =>
        simp only [List.map_cons, List.pairwise_cons]
        refine ⟨?_, h⟩
        intro name hname
        rcases List.mem_cons.1 hname with rfl | hname
        · exact hlt
        · exact hlt.trans (h.1 name hname)
      next hge =>
        split
        · exact List.pairwise_cons.2 h
        next hne =>
          rw [List.map_cons, List.pairwise_cons]
          refine ⟨?_, ih h.2⟩
          intro name hname
          rcases mem_pushPosting.1 hname with rfl | hname
          · exact lt_of_le_of_ne (not_lt.1 hge) (Ne.symm hne)
          · exact h.1 name hname

theorem postingsOf_cons (entry : TermPostingList) (terms : List TermPostingList) (name : String) :
    postingsOf (entry :: terms) name
      = (if entry.term = name then entry.postings else []) ++ postingsOf terms name := by
  by_cases heq : entry.term = name
  · simp [postingsOf, heq]
  · simp [postingsOf, heq]

/-- A posting goes to the end of those of its term. -/
theorem postingsOf_pushPosting {term : String} {posting : Posting} {terms : List TermPostingList}
    (h : (terms.map TermPostingList.term).Pairwise (· < ·)) (name : String) :
    postingsOf (pushPosting term posting terms) name
      = postingsOf terms name ++ if term = name then [posting] else [] := by
  induction terms with
  | nil =>
      rw [pushPosting, postingsOf_cons]
      simp only [postingsOf, List.filter_nil, List.flatMap_nil, List.append_nil, List.nil_append]
  | cons entry terms ih =>
      have hnone : ∀ later, later ≤ entry.term → postingsOf terms later = [] := by
        intro later hle
        refine postingsOf_not_mem ?_
        intro other hother heq
        rw [List.map_cons, List.pairwise_cons] at h
        have hlt := h.1 other.term (List.mem_map_of_mem hother)
        rw [heq] at hlt
        exact absurd hlt (not_lt.2 hle)
      rw [pushPosting]
      split
      next hlt =>
        rw [postingsOf_cons, postingsOf_cons]
        by_cases hname : term = name
        · subst hname
          rw [if_neg (ne_of_gt hlt), hnone term hlt.le, List.append_nil, List.append_nil,
            List.nil_append]
        · rw [if_neg hname, List.nil_append, List.append_nil]
      split
      next heq =>
        subst heq
        rw [postingsOf_cons, postingsOf_cons]
        by_cases hname : entry.term = name
        · subst hname
          simp only [if_true, hnone entry.term le_rfl, List.append_nil]
        · simp only [if_neg hname, List.append_nil]
      next =>
        rw [List.map_cons, List.pairwise_cons] at h
        rw [postingsOf_cons, postingsOf_cons, ih h.2, List.append_assoc]

theorem Grouped.push {posted : List (String × Posting)} {terms : List TermPostingList}
    {term : String} (h : Grouped posted terms) (hterm : term ≠ "") (posting : Posting) :
    Grouped (posted ++ [(term, posting)]) (pushPosting term posting terms) := by
  have hmem : ∀ terms : List TermPostingList, (∀ entry ∈ terms, entry.postings ≠ []) →
      ∀ entry ∈ pushPosting term posting terms, entry.postings ≠ [] := by
    intro terms hfilled
    induction terms with
    | nil =>
        intro entry hentry
        rw [pushPosting, List.mem_singleton] at hentry
        rw [hentry]
        exact List.cons_ne_nil _ _
    | cons first terms ih =>
        intro entry hentry
        have hrest := ih fun other hother => hfilled other (List.mem_cons_of_mem _ hother)
        rw [pushPosting] at hentry
        split at hentry
        · rcases List.mem_cons.1 hentry with rfl | hentry
          · exact List.cons_ne_nil _ _
          · exact hfilled entry hentry
        split at hentry
        · rcases List.mem_cons.1 hentry with rfl | hentry
          · exact List.append_ne_nil_of_right_ne_nil _ (List.cons_ne_nil _ _)
          · exact hfilled entry (List.mem_cons_of_mem _ hentry)
        · rcases List.mem_cons.1 hentry with rfl | hentry
          · exact hfilled entry List.mem_cons_self
          · exact hrest entry hentry
  refine ⟨⟨?_, pairwise_pushPosting h.order.2⟩, hmem terms h.filled, ?_⟩
  · intro name hname
    rcases mem_pushPosting.1 hname with rfl | hname
    · exact hterm
    · exact h.order.1 name hname
  · intro name
    rw [postingsOf_pushPosting h.order.2, h.groups, postedTo, postedTo, List.filter_append,
      List.map_append]
    by_cases hname : term = name
    · simp [hname]
    · simp [hname]

theorem Grouped.nil : Grouped [] [] where
  order := ⟨by simp, List.Pairwise.nil⟩
  filled := by simp
  groups := fun _ => rfl

/-- Reading lines fills the entries of the map with what the lines say. -/
theorem Grouped.foldl {posted more : List (String × Posting)} {terms : List TermPostingList}
    (h : Grouped posted terms) (hmore : ∀ line ∈ more, line.1 ≠ "") :
    Grouped (posted ++ more)
      (more.foldl (fun terms line => pushPosting line.1 line.2 terms) terms) := by
  induction more generalizing posted terms with
  | nil => rwa [List.append_nil]
  | cons line more ih =>
      have hpush := h.push (hmore line List.mem_cons_self) line.2
      rw [List.append_cons]
      exact ih hpush fun other hother => hmore other (List.mem_cons_of_mem _ hother)

/-! ### What a text says -/

/-- What some lines say, from one with this index on. -/
def readLines : ℕ → List String → Except Failure (List (String × Posting))
  | _, [] => .ok []
  | index, line :: rest => do
      let said ← parseLine (index + 1) line
      let more ← readLines (index + 1) rest
      return said.toList ++ more

theorem parseLines_eq (index : ℕ) (ls : List String) (terms : List TermPostingList) :
    parseLines index ls terms = (readLines index ls).map
      (·.foldl (fun terms line => pushPosting line.1 line.2 terms) terms) := by
  induction ls generalizing index terms with
  | nil => rfl
  | cons line rest ih =>
      rw [parseLines, readLines]
      cases hline : parseLine (index + 1) line with
      | error e => rfl
      | ok said =>
          cases said with
          | none =>
              simp only [bind, Except.bind, ih]
              cases readLines (index + 1) rest <;> rfl
          | some said =>
              simp only [bind, Except.bind, ih]
              cases readLines (index + 1) rest <;> rfl

/-- Every posting is that of one line. -/
theorem mem_readLines {index : ℕ} {ls : List String} {posted : List (String × Posting)}
    (h : readLines index ls = .ok posted) (said : String × Posting) :
    said ∈ posted ↔
      ∃ i line, ls[i]? = some line ∧ parseLine (index + i + 1) line = .ok (some said) := by
  induction ls generalizing index posted with
  | nil =>
      cases h
      simp
  | cons line rest ih =>
      simp only [readLines, bind_ok, pure_ok] at h
      obtain ⟨first, hfirst, more, hmore, rfl⟩ := h
      have hindex : ∀ i, index + 1 + i + 1 = index + (i + 1) + 1 := by omega
      rw [List.mem_append, Option.mem_toList, ih hmore]
      constructor
      · rintro (rfl | ⟨i, other, hother, hsaid⟩)
        · exact ⟨0, line, rfl, hfirst⟩
        · exact ⟨i + 1, other, hother, by rw [← hindex, hsaid]⟩
      · rintro ⟨i, other, hother, hsaid⟩
        cases i with
        | zero =>
            cases hother
            rw [Nat.add_zero, hfirst] at hsaid
            exact .inl (Except.ok.inj hsaid)
        | succ i => exact .inr ⟨i, other, hother, by rw [hindex, hsaid]⟩

/-- A term is a word. -/
theorem term_ne_empty {number : ℕ} {line term : String} {posting : Posting}
    (h : parseLine number line = .ok (some (term, posting))) : term ≠ "" := by
  rw [parseLine] at h
  split at h
  · cases h
  split at h
  · cases h
  · cases h
  next name docId rest hsplit =>
    have hmem : name ∈ splitWhitespace (trim line) := by
      rw [hsplit]
      exact List.mem_cons_self
    have hname : name ≠ "" := by
      obtain ⟨word, hword, rfl⟩ := List.mem_map.1 hmem
      have hne := (List.mem_filter.1 hword).2
      rw [decide_eq_true_eq] at hne
      intro hempty
      exact hne (String.ofList_eq_empty_iff.1 hempty)
    simp only [bind_ok] at h
    obtain ⟨_, -, _, -, h⟩ := h
    split at h
    · cases h
    · cases h
      exact hname

theorem parseSearchPostings_ok {text : String} {entries : List TermPostingList} :
    parseSearchPostings text = .ok entries ↔ ∃ posted, readLines 0 (lines text) = .ok posted ∧
      entries = (posted.foldl (fun terms line => pushPosting line.1 line.2 terms) []).map
        sortPostings := by
  rw [parseSearchPostings, parseLines_eq]
  cases readLines 0 (lines text) with
  | error e => simp [Except.map, bind, Except.bind]
  | ok posted => simp [Except.map, bind, Except.bind, pure, Except.pure, eq_comm]

/-- The postings of a term are those of its lines, by document. -/
theorem Grouped.sorted {posted : List (String × Posting)} {terms : List TermPostingList}
    (h : Grouped posted terms) :
    TermsInOrder ((terms.map sortPostings).map TermPostingList.term) ∧
      (∀ entry ∈ terms.map sortPostings, entry.postings ≠ []) ∧
      ∀ term, postingsOf (terms.map sortPostings) term
        = (postedTo posted term).mergeSort fun one two => one.docId ≤ two.docId := by
  have hterms : (terms.map sortPostings).map TermPostingList.term
      = terms.map TermPostingList.term := by
    rw [List.map_map]
    rfl
  refine ⟨by rw [hterms]; exact h.order, ?_, ?_⟩
  · intro entry hentry
    obtain ⟨unsorted, hunsorted, rfl⟩ := List.mem_map.1 hentry
    intro hnil
    refine h.filled unsorted hunsorted ?_
    have hlength := congrArg List.length hnil
    rw [sortPostings, List.length_mergeSort] at hlength
    exact List.length_eq_zero_iff.1 hlength
  · intro term
    rw [← h.groups]
    by_cases hterm : ∃ entry ∈ terms, entry.term = term
    · obtain ⟨entry, hentry, rfl⟩ := hterm
      rw [postingsOf_mem h.order hentry]
      exact postingsOf_mem (by rw [hterms]; exact h.order) (List.mem_map_of_mem hentry)
    · have hnot : ∀ entry ∈ terms, entry.term ≠ term := fun entry hentry heq =>
        hterm ⟨entry, hentry, heq⟩
      rw [postingsOf_not_mem hnot, List.mergeSort_nil, postingsOf_not_mem]
      intro entry hentry
      obtain ⟨unsorted, hunsorted, rfl⟩ := List.mem_map.1 hentry
      exact hnot unsorted hunsorted

/-- A line of the text has this posting for the term. -/
def Says (text term : String) (posting : Posting) : Prop :=
  ∃ i line, (lines text)[i]? = some line ∧ parseLine (i + 1) line = .ok (some (term, posting))

theorem mem_postedTo {posted : List (String × Posting)} {term : String} {posting : Posting} :
    posting ∈ postedTo posted term ↔ (term, posting) ∈ posted := by
  rw [postedTo, List.mem_map]
  constructor
  · rintro ⟨⟨name, said⟩, hmem, rfl⟩
    obtain ⟨hposted, hname⟩ := List.mem_filter.1 hmem
    obtain rfl : name = term := of_decide_eq_true hname
    exact hposted
  · intro hmem
    exact ⟨_, List.mem_filter.2 ⟨hmem, decide_eq_true rfl⟩, rfl⟩

/-- **Entries that are read have the postings of the text.** -/
theorem postingsOf_parsed {text : String} {entries : List TermPostingList}
    (h : parseSearchPostings text = .ok entries) (term : String) (posting : Posting) :
    posting ∈ postingsOf entries term ↔ Says text term posting := by
  obtain ⟨posted, hread, rfl⟩ := parseSearchPostings_ok.1 h
  have hsaid := mem_readLines hread
  have hterms : ∀ line ∈ posted, line.1 ≠ "" := by
    rintro ⟨name, said⟩ hline
    obtain ⟨i, line, -, hparse⟩ := (hsaid _).1 hline
    exact term_ne_empty hparse
  have hgrouped := Grouped.nil.foldl hterms
  rw [hgrouped.sorted.2.2, List.mem_mergeSort, List.nil_append, mem_postedTo, hsaid, Says]
  simp only [Nat.zero_add]

/-- **A search finds what the text says.**  Looking up a term of the dictionary gives the documents
of its lines, in order, a document is found with the positions of its line, and a conjunction has
the documents that have a line for every term. -/
theorem searchEncode_seek [Crc32Fast] {text : String} {entries : List TermPostingList}
    {skipStep : UInt64} {block : List UInt8} (hparse : parseSearchPostings text = .ok entries)
    (hencode : encodeDictionary entries skipStep = .ok block) (hfit : Fits block)
    (hlimits : WithinLimits entries) :
    (∀ term, ∃ postings, termPostings block term = .ok postings ∧
      (postings.map Posting.docId).Pairwise (· < ·) ∧
        ∀ posting, posting ∈ postings ↔ Says text term posting) ∧
    (∀ term docId, ∃ found, seekTermDoc block term docId = .ok found ∧
      ∀ posting, found = some posting ↔ Says text term posting ∧ posting.docId = docId) ∧
    ∀ terms, terms ≠ [] → ∃ docIds, andDocIds block terms = .ok docIds ∧
      docIds.Pairwise (· < ·) ∧ ∀ docId, docId ∈ docIds ↔
        ∀ term ∈ terms, ∃ posting, Says text term posting ∧ posting.docId = docId := by
  have h : Encodes block entries skipStep := ⟨hencode, hfit, hlimits⟩
  refine ⟨?_, ?_, ?_⟩
  · intro term
    exact ⟨_, h.termPostings term, (h.acceptable term).1.1, postingsOf_parsed hparse term⟩
  · intro term docId
    refine ⟨_, seekTermDoc_encoded h term docId, ?_⟩
    intro posting
    rw [findDoc_iff (h.acceptable term).1, postingsOf_parsed hparse]
  · intro terms hterms
    obtain ⟨docIds, hand, hsorted, hmem⟩ := andDocIds_encoded h hterms
    refine ⟨docIds, hand, hsorted, ?_⟩
    intro docId
    rw [hmem]
    refine forall₂_congr fun term _ => ?_
    rw [occurs_iff, List.mem_map]
    exact exists_congr fun posting => and_congr_left' (postingsOf_parsed hparse term posting)

section

open scoped CompactCore.Reference

/-- A text with a comment, and a line for each of two terms. -/
def shortText : String := "# term doc positions\nb 7 1,4\n\n a  2\n"

/-- The entries of the text. -/
def shortEntries : List TermPostingList := [⟨"a", [⟨2, []⟩]⟩, ⟨"b", [⟨7, [1, 4]⟩]⟩]

theorem parse_shortText : parseSearchPostings shortText = .ok shortEntries := by
  refine parseSearchPostings_ok.2 ⟨[("b", ⟨7, [1, 4]⟩), ("a", ⟨2, []⟩)], by decide +kernel, ?_⟩
  have hpushed : ([("b", ⟨7, [1, 4]⟩), ("a", ⟨2, []⟩)] : List (String × Posting)).foldl
      (fun terms line => pushPosting line.1 line.2 terms) [] = shortEntries := by
    decide +kernel
  rw [hpushed]
  simp [shortEntries, sortPostings]

theorem searchEncode_seek_short : ∃ block posting, encodeDictionary shortEntries 1 = .ok block ∧
    seekTermDoc block "b" 7 = .ok (some posting) ∧ Says shortText "b" posting := by
  obtain ⟨block, hblock, hfit⟩ :
      ∃ block, encodeDictionary shortEntries 1 = .ok block ∧ Fits block :=
    Reference.exists_ok _ (by decide +kernel)
  have hlimits : WithinLimits shortEntries := by
    constructor <;> decide +kernel
  obtain ⟨-, hseek, -⟩ := searchEncode_seek parse_shortText hblock hfit hlimits
  obtain ⟨found, hfound, hiff⟩ := hseek "b" 7
  have hposted : Says shortText "b" ⟨7, [1, 4]⟩ :=
    ⟨1, "b 7 1,4", by decide +kernel, by decide +kernel⟩
  rw [(hiff _).2 ⟨hposted, rfl⟩] at hfound
  exact ⟨block, _, hblock, hfound, hposted⟩

end

/-! ### A text of lines -/

/-- A line that `parse_search_postings` skips. -/
def IsNote (line : String) : Prop := trim line = "" ∨ (trim line).toList.head? = some '#'

theorem parseLine_note {line : String} (h : IsNote line) (number : ℕ) :
    parseLine number line = .ok none := if_pos h

/-- The lines of some entries. -/
def searchLines (entries : List TermPostingList) : List String :=
  entries.flatMap fun entry => entry.postings.map (searchLine entry.term)

/-- The postings of some entries, each with its term. -/
def allPosted (entries : List TermPostingList) : List (String × Posting) :=
  entries.flatMap fun entry => entry.postings.map (Prod.mk entry.term)

theorem postedTo_allPosted (entries : List TermPostingList) (term : String) :
    postedTo (allPosted entries) term = postingsOf entries term := by
  induction entries with
  | nil => rfl
  | cons entry entries ih =>
      rw [postingsOf_cons, ← ih, allPosted, List.flatMap_cons, postedTo, List.filter_append,
        List.map_append]
      congr 1
      by_cases hterm : entry.term = term
      · simp [hterm, List.filter_map, Function.comp_def]
      · simp [hterm, List.filter_map, Function.comp_def]

/-- What a line says, whatever its number. -/
def said (line : String) : Option (String × Posting) := (parseLine 0 line).toOption.join

/-- Lines that can be read say what each of them says. -/
theorem readLines_of {ls : List String}
    (h : ∀ line ∈ ls, ∀ number, parseLine number line = .ok (said line)) (index : ℕ) :
    readLines index ls = .ok (ls.filterMap said) := by
  induction ls generalizing index with
  | nil => rfl
  | cons line ls ih =>
      simp only [readLines, bind_ok, pure_ok]
      refine ⟨_, h line List.mem_cons_self _, _,
        ih (fun other hother => h other (List.mem_cons_of_mem _ hother)) _, ?_⟩
      cases hsaid : said line with
      | none => rw [List.filterMap_cons_none hsaid]; rfl
      | some said => rw [List.filterMap_cons_some hsaid]; rfl

theorem lines_join {texts : List String} (hlf : ∀ line ∈ texts, '\n' ∉ line.toList)
    (hcr : ∀ line ∈ texts, line.toList.getLast? ≠ some '\r') :
    lines (String.join (texts.map (· ++ "\n"))) = texts := by
  induction texts with
  | nil => rfl
  | cons line texts ih =>
      rw [List.map_cons, String.join_cons,
        lines_append_line (hlf line List.mem_cons_self) (hcr line List.mem_cons_self),
        ih (fun other hother => hlf other (List.mem_cons_of_mem _ hother))
          (fun other hother => hcr other (List.mem_cons_of_mem _ hother))]

theorem eq_map_postingsOf {entries : List TermPostingList}
    (h : TermsInOrder (entries.map TermPostingList.term)) :
    entries = (entries.map TermPostingList.term).map fun term =>
      ⟨term, postingsOf entries term⟩ := by
  rw [List.map_map]
  refine (List.map_id entries).symm.trans (List.map_congr_left ?_)
  intro entry hentry
  rw [Function.comp_apply, postingsOf_mem h hentry]
  rfl

theorem mem_terms_iff {entries : List TermPostingList}
    (h : TermsInOrder (entries.map TermPostingList.term))
    (hfilled : ∀ entry ∈ entries, entry.postings ≠ []) (term : String) :
    term ∈ entries.map TermPostingList.term ↔ postingsOf entries term ≠ [] := by
  rw [List.mem_map]
  constructor
  · rintro ⟨entry, hentry, rfl⟩
    rw [postingsOf_mem h hentry]
    exact hfilled entry hentry
  · intro hne
    by_contra hnot
    exact hne (postingsOf_not_mem fun entry hentry heq => hnot ⟨entry, hentry, heq⟩)

/-- Entries in order are known by the postings of each term. -/
theorem entries_ext {one two : List TermPostingList}
    (hone : TermsInOrder (one.map TermPostingList.term))
    (htwo : TermsInOrder (two.map TermPostingList.term))
    (hfilled : ∀ entry ∈ one, entry.postings ≠ []) (hfilled' : ∀ entry ∈ two, entry.postings ≠ [])
    (h : ∀ term, postingsOf one term = postingsOf two term) : one = two := by
  have hperm : (one.map TermPostingList.term).Perm (two.map TermPostingList.term) := by
    refine (List.perm_ext_iff_of_nodup (hone.2.imp ne_of_lt) (htwo.2.imp ne_of_lt)).2 ?_
    intro term
    rw [mem_terms_iff hone hfilled, mem_terms_iff htwo hfilled', h]
  have hterms : one.map TermPostingList.term = two.map TermPostingList.term :=
    hperm.eq_of_pairwise (fun a b _ _ hab hba => absurd hab (lt_asymm hba)) hone.2 htwo.2
  rw [eq_map_postingsOf hone, eq_map_postingsOf htwo, hterms]
  exact List.map_congr_left fun term _ => by rw [h]

/-- Sorting brings back a list that was sorted by document. -/
theorem mergeSort_of_perm {sorted unsorted : List Posting}
    (hsorted : (sorted.map Posting.docId).Pairwise (· < ·)) (hperm : unsorted.Perm sorted) :
    (unsorted.mergeSort fun one two => one.docId ≤ two.docId) = sorted := by
  have hlt : sorted.Pairwise fun one two => one.docId < two.docId := List.pairwise_map.1 hsorted
  refine @List.Perm.eq_of_pairwise _ (fun one two => one.docId ≤ two.docId) _ _ ?_ ?_
    (hlt.imp le_of_lt) ((List.mergeSort_perm _ _).trans hperm)
  · intro one two hone htwo hle hge
    have hone' : one ∈ sorted := hperm.mem_iff.1 (List.mem_mergeSort.1 hone)
    exact List.inj_on_of_nodup_map (hsorted.imp ne_of_lt) hone' htwo (le_antisymm hle hge)
  · have htrans : ∀ a b c : Posting, decide (a.docId ≤ b.docId) = true →
        decide (b.docId ≤ c.docId) = true → decide (a.docId ≤ c.docId) = true := by
      intro a b c hab hbc
      rw [decide_eq_true_eq] at hab hbc ⊢
      exact hab.trans hbc
    have htotal : ∀ a b : Posting,
        (decide (a.docId ≤ b.docId) || decide (b.docId ≤ a.docId)) = true := by
      intro a b
      rw [Bool.or_eq_true, decide_eq_true_eq, decide_eq_true_eq]
      exact le_total _ _
    exact (List.pairwise_mergeSort htrans htotal unsorted).imp of_decide_eq_true

theorem searchLine_noBreak {term : String} (hterm : IsWord term) (posting : Posting) {c : Char}
    (hc : isWhitespace c = true) (hblank : c ≠ ' ') : c ∉ (searchLine term posting).toList := by
  have hnot : isWhitespace c ≠ false := by rw [hc]; exact Bool.noConfusion
  rw [searchLine_toList]
  simp only [List.mem_append, List.mem_cons, not_or]
  refine ⟨?_, hblank, ?_, hblank, ?_⟩
  · exact fun hmem => hnot (hterm.word c hmem)
  · exact fun hmem => hnot (not_isWhitespace_of_isDigit (isDigit_of_mem_toString hmem))
  · exact fun hmem => hnot ((positionsText_word posting.positions).2 c hmem)

/-- **The text says what the dictionary holds.**  The lines of some entries, in any order and with
notes among them, are read as these entries. -/
theorem parseSearchPostings_render {entries : List TermPostingList} {notes texts : List String}
    (horder : (entries.map TermPostingList.term).Pairwise (· < ·))
    (hwords : ∀ entry ∈ entries, IsWord entry.term)
    (hfilled : ∀ entry ∈ entries, entry.postings ≠ [])
    (hdocs : ∀ entry ∈ entries, (entry.postings.map Posting.docId).Pairwise (· < ·))
    (hnotes : ∀ line ∈ notes, IsNote line ∧ '\n' ∉ line.toList ∧ line.toList.getLast? ≠ some '\r')
    (htexts : texts.Perm (notes ++ searchLines entries)) :
    parseSearchPostings (String.join (texts.map (· ++ "\n"))) = .ok entries := by
  have hline : ∀ entry ∈ entries, ∀ posting number,
      parseLine number (searchLine entry.term posting) = .ok (some (entry.term, posting)) := by
    intro entry hentry posting number
    exact parseLine_searchLine (hwords entry hentry) posting number
  have hreads : ∀ line ∈ texts, ∀ number, parseLine number line = .ok (said line) := by
    intro line hmem number
    rcases List.mem_append.1 (htexts.mem_iff.1 hmem) with hnote | hmem
    · rw [said, parseLine_note (hnotes line hnote).1, parseLine_note (hnotes line hnote).1]
      rfl
    · obtain ⟨entry, hentry, hmem⟩ := List.mem_flatMap.1 hmem
      obtain ⟨posting, -, rfl⟩ := List.mem_map.1 hmem
      rw [said, hline entry hentry, hline entry hentry]
      rfl
  have hnotesSaid : notes.filterMap said = [] := by
    rw [List.filterMap_eq_nil_iff]
    intro line hnote
    rw [said, parseLine_note (hnotes line hnote).1]
    rfl
  have hlinesSaid : (searchLines entries).filterMap said = allPosted entries := by
    rw [searchLines, List.filterMap_flatMap, allPosted]
    refine List.flatMap_congr ?_
    intro entry hentry
    have hsaid : said ∘ searchLine entry.term = some ∘ Prod.mk entry.term := by
      funext posting
      rw [Function.comp_apply, said, hline entry hentry]
      rfl
    rw [List.filterMap_map, hsaid, List.filterMap_eq_map]
  have hposted : (texts.filterMap said).Perm (allPosted entries) := by
    have h := htexts.filterMap said
    rwa [List.filterMap_append, hnotesSaid, hlinesSaid, List.nil_append] at h
  have hbreak : ∀ line ∈ texts, '\n' ∉ line.toList ∧ line.toList.getLast? ≠ some '\r' := by
    intro line hmem
    rcases List.mem_append.1 (htexts.mem_iff.1 hmem) with hnote | hmem
    · exact (hnotes line hnote).2
    · obtain ⟨entry, hentry, hmem⟩ := List.mem_flatMap.1 hmem
      obtain ⟨posting, -, rfl⟩ := List.mem_map.1 hmem
      have hnone := fun c => searchLine_noBreak (hwords entry hentry) posting (c := c)
      refine ⟨hnone '\n' rfl (by decide), ?_⟩
      intro hlast
      exact hnone '\r' rfl (by decide) (List.mem_of_getLast? hlast)
  refine parseSearchPostings_ok.2 ⟨texts.filterMap said, ?_, ?_⟩
  · rw [lines_join (fun line hmem => (hbreak line hmem).1) fun line hmem => (hbreak line hmem).2]
    exact readLines_of hreads 0
  · have hterms : ∀ line ∈ texts.filterMap said, line.1 ≠ "" := by
      rintro ⟨term, posting⟩ hmem
      obtain ⟨line, hline, hsaid⟩ := List.mem_filterMap.1 hmem
      refine @term_ne_empty 0 line term posting ?_
      rw [hreads line hline, hsaid]
    have hnonempty : TermsInOrder (entries.map TermPostingList.term) := by
      refine ⟨?_, horder⟩
      intro term hterm hempty
      obtain ⟨entry, hentry, rfl⟩ := List.mem_map.1 hterm
      exact (hwords entry hentry).ne_nil (by rw [hempty]; rfl)
    obtain ⟨horder', hfilled', hgroups⟩ := (Grouped.nil.foldl hterms).sorted
    refine entries_ext hnonempty horder' hfilled hfilled' ?_
    intro term
    have hdocsOf : ((postingsOf entries term).map Posting.docId).Pairwise (· < ·) := by
      by_cases hterm : ∃ entry ∈ entries, entry.term = term
      · obtain ⟨entry, hentry, rfl⟩ := hterm
        rw [postingsOf_mem hnonempty hentry]
        exact hdocs entry hentry
      · rw [postingsOf_not_mem fun entry hentry heq => hterm ⟨entry, hentry, heq⟩]
        exact List.Pairwise.nil
    have hperm : (postedTo ([] ++ texts.filterMap said) term).Perm (postingsOf entries term) := by
      rw [← postedTo_allPosted, List.nil_append]
      exact (hposted.filter _).map _
    rw [hgroups, mergeSort_of_perm hdocsOf hperm]

theorem isWord_singleton {c : Char} (hc : isWhitespace c = false) (hnote : c ≠ '#') :
    IsWord (String.ofList [c]) where
  ne_nil := by
    rw [String.toList_ofList]
    exact List.cons_ne_nil _ _
  word := by
    intro other hother
    rw [String.toList_ofList] at hother
    rw [List.mem_singleton.1 hother]
    exact hc
  no_note := by
    rw [String.toList_ofList]
    intro heq
    exact hnote (Option.some.inj heq)

/-- The lines of some entries, from the last one, and a note. -/
theorem parseSearchPostings_render_backwards :
    parseSearchPostings "b 7 1,4\n# nothing\na 9 -\na 2 5\n"
      = .ok [⟨"a", [⟨2, [5]⟩, ⟨9, []⟩]⟩, ⟨"b", [⟨7, [1, 4]⟩]⟩] := by
  have hwords : ∀ term ∈ ["a", "b"], IsWord term := by
    intro term hterm
    rcases List.mem_cons.1 hterm with rfl | hterm
    · exact isWord_singleton rfl (by decide)
    · rw [List.mem_singleton.1 hterm]
      exact isWord_singleton rfl (by decide)
  have hperm : ["b 7 1,4", "# nothing", "a 9 -", "a 2 5"].Perm
      (["# nothing"] ++ searchLines [⟨"a", [⟨2, [5]⟩, ⟨9, []⟩]⟩, ⟨"b", [⟨7, [1, 4]⟩]⟩]) := by
    decide +kernel
  have h := parseSearchPostings_render (by decide) ?_ (by decide) (by decide) ?_ hperm
  · simpa using h
  · intro entry hentry
    exact hwords _ (List.mem_map_of_mem hentry)
  · intro line hline
    rw [List.mem_singleton.1 hline]
    exact ⟨.inr (by decide), by decide, by decide⟩

end CompactCore.Cli
