/-
**Rows and row groups.**

A line that is not blank is a row: it is brought to the form with one line feed at its end, and
collected into a row group.  A row group is closed when the next row would not fit the block
options, or when it has reached them.  The streaming writer and the parallel scheduler each do this
over a state of their own; here it is done over any state, with the way to close a row group left
open, and `CompactCore.Streaming.cutRows` says at which places the rows are cut.

Main definitions:

* `CompactCore.Streaming.BlockOptions`, `CompactCore.Streaming.RowGroupBuffer` — the limits, and the
  open row group;
* `CompactCore.Streaming.addLine` — take in one line;
* `CompactCore.Streaming.Cut`, `CompactCore.Streaming.cutRows` — where row groups end.

Main results:

* `CompactCore.Streaming.forM_addLine` — lines are taken in exactly when they are rows, and the rows
  are;
* `CompactCore.Streaming.forM_addRow_cut` — whoever can close a row group cuts the rows at the same
  places;
* `CompactCore.Streaming.flatten_cutRows` — **no row is lost, repeated or moved**.
-/

import CompactCore.Io.Rows
import CompactCore.Wire.Method
import Mathlib.Data.List.ReduceOption

set_option relaxedAutoImplicit false
set_option autoImplicit false

namespace CompactCore.Streaming

open Wire CompactError

/-! ### Options -/

/-- Controls when the streaming writer flushes the current row group. -/
structure BlockOptions where
  maxRowsPerBlock : ℕ
  maxUncompressedBytesPerBlock : ℕ
  deriving DecidableEq, Repr

def BlockOptions.validate (options : BlockOptions) : Result BlockOptions := do
  failIf (options.maxRowsPerBlock = 0)
    (invalidInput "max rows per block must be greater than zero")
  failIf (options.maxUncompressedBytesPerBlock = 0)
    (invalidInput "max uncompressed bytes per block must be greater than zero")
  return options

theorem BlockOptions.validate_ok {options options' : BlockOptions} :
    options.validate = .ok options' ↔ options.maxRowsPerBlock ≠ 0 ∧
      options.maxUncompressedBytesPerBlock ≠ 0 ∧ options = options' := by
  simp only [BlockOptions.validate, bind_ok, failIf_ok, pure_ok, exists_const]

/-! ### Rows -/

def normalizeJsonlLine (line : String) : Result String := do
  let line := stripSuffix '\n' line
  let line := stripSuffix '\r' line
  failIf (containsLineBreak line = true)
    (invalidInput "jsonl line must not contain embedded newline")
  return line ++ "\n"

/-- The row of a line, if it is not blank. -/
def acceptLine (maxRowLen : ℕ) (line : String) : Result (Option String) :=
  if isBlank line = true then .ok none
  else do
    let line ← normalizeJsonlLine line
    failIf (maxRowLen < line.utf8ByteSize)
      (invalidInput "jsonl row exceeds max uncompressed bytes per block")
    return some line

/-- The rows of some lines. -/
def acceptLines (maxRowLen : ℕ) (lines : List String) : Result (List String) := do
  let rows ← lines.mapM (acceptLine maxRowLen)
  return rows.reduceOption

theorem acceptLines_nil {maxRowLen : ℕ} {rows : List String} :
    acceptLines maxRowLen [] = .ok rows ↔ rows = [] := by
  constructor
  · intro h
    cases h
    rfl
  · intro h
    rw [h]
    rfl

theorem acceptLines_cons {maxRowLen : ℕ} {line : String} {lines rows : List String} :
    acceptLines maxRowLen (line :: lines) = .ok rows ↔
      ∃ row rows', acceptLine maxRowLen line = .ok row ∧ acceptLines maxRowLen lines = .ok rows' ∧
        rows = row.toList ++ rows' := by
  simp only [acceptLines, List.mapM_cons, bind_ok, pure_ok]
  constructor
  · intro h
    obtain ⟨_, ⟨row, hrow, found, hfound, rfl⟩, rfl⟩ := h
    refine ⟨row, found.reduceOption, hrow, ⟨found, hfound, rfl⟩, ?_⟩
    cases row <;> rfl
  · intro h
    obtain ⟨row, _, hrow, ⟨found, hfound, rfl⟩, rfl⟩ := h
    refine ⟨row :: found, ⟨row, hrow, found, hfound, rfl⟩, ?_⟩
    cases row <;> rfl

/-- A normalized row. -/
structure IsRow (maxRowLen : ℕ) (row : String) : Prop where
  line : ∃ line, row = line ++ "\n" ∧ isBlank line = false ∧ '\n' ∉ line.toList ∧ '\r' ∉ line.toList
  size : row.utf8ByteSize ≤ maxRowLen

theorem isRow_of_acceptLine {maxRowLen : ℕ} {line row : String}
    (h : acceptLine maxRowLen line = .ok (some row)) : IsRow maxRowLen row := by
  unfold acceptLine at h
  split at h
  · cases h
  · rename_i hblank
    simp only [normalizeJsonlLine, bind_ok, failIf_ok, pure_ok] at h
    obtain ⟨_, ⟨_, hbreak, rfl⟩, _, hsize, hrow⟩ := h
    cases hrow
    refine ⟨⟨_, rfl, ?_, ?_⟩, Nat.le_of_not_lt hsize⟩
    · rw [isBlank_stripSuffix rfl, isBlank_stripSuffix rfl]
      exact Bool.eq_false_iff.2 hblank
    · simpa [containsLineBreak] using hbreak

theorem isRow_of_acceptLines {maxRowLen : ℕ} {lines rows : List String}
    (h : acceptLines maxRowLen lines = .ok rows) : ∀ row ∈ rows, IsRow maxRowLen row := by
  simp only [acceptLines, bind_ok, pure_ok, mapM_ok] at h
  obtain ⟨found, hfound, rfl⟩ := h
  intro row hrow
  rw [List.reduceOption_mem_iff] at hrow
  obtain ⟨i, hi, hget⟩ := List.getElem_of_mem hrow
  have hline := (List.forall₂_iff_get.1 hfound).2 i (hfound.length_eq ▸ hi) hi
  rw [List.get_eq_getElem, List.get_eq_getElem, hget] at hline
  exact isRow_of_acceptLine hline

theorem IsRow.size_pos {maxRowLen : ℕ} {row : String} (h : IsRow maxRowLen row) :
    0 < row.utf8ByteSize := by
  obtain ⟨line, rfl, -⟩ := h.line
  rw [String.utf8ByteSize_append]
  exact Nat.add_pos_right _ (by decide)

theorem utf8ByteSize_join (rows : List String) :
    (String.join rows).utf8ByteSize = (rows.map String.utf8ByteSize).sum := by
  induction rows with
  | nil => rfl
  | cons row rows ih =>
      rw [String.join_cons, String.utf8ByteSize_append, ih, List.map_cons, List.sum_cons]

/-- Rows take at least a byte each. -/
theorem length_le_bytes {rows : List String} (h : ∀ row ∈ rows, 0 < row.utf8ByteSize) :
    rows.length ≤ (rows.map String.utf8ByteSize).sum := by
  induction rows with
  | nil => exact Nat.zero_le _
  | cons row rows ih =>
      have hrow := h row List.mem_cons_self
      have hrest := ih fun row' hrow' => h row' (List.mem_cons_of_mem _ hrow')
      rw [List.length_cons, List.map_cons, List.sum_cons]
      omega

/-- Rows, put one after the other, are cut into their lines again. -/
theorem lines_join {maxRowLen : ℕ} {rows : List String} (h : ∀ row ∈ rows, IsRow maxRowLen row) :
    lines (String.join rows) = rows.map (stripSuffix '\n') := by
  induction rows with
  | nil => rfl
  | cons row rows ih =>
      obtain ⟨line, hline, hblank, hlf, hcr⟩ := (h row List.mem_cons_self).line
      have hstrip : stripSuffix '\n' row = line := by
        rw [hline, stripSuffix]
        simp
      rw [String.join_cons, hline, lines_append_line hlf
        (fun hlast => hcr (List.mem_of_getLast? hlast)), List.map_cons, ← hline, hstrip,
        ih fun row' hrow' => h row' (List.mem_cons_of_mem _ hrow')]

/-- A row group has as many lines as it has rows, none of them blank. -/
theorem filter_lines_join {maxRowLen : ℕ} {rows : List String}
    (h : ∀ row ∈ rows, IsRow maxRowLen row) :
    ((lines (String.join rows)).filter fun line => !isBlank line) =
      rows.map (stripSuffix '\n') := by
  rw [lines_join h, List.filter_eq_self]
  intro line hline
  obtain ⟨row, hrow, rfl⟩ := List.mem_map.1 hline
  obtain ⟨line, hline, hblank, _, _⟩ := (h row hrow).line
  rw [hline, stripSuffix]
  simp [hblank]

theorem length_of_parseRows_join [SerdeJson] {maxRowLen : ℕ} {rows : List String}
    (h : ∀ row ∈ rows, IsRow maxRowLen row) {parsed : List Map}
    (hparsed : Io.parseRows (String.join rows) = .ok parsed) : parsed.length = rows.length := by
  rw [Io.parseRows, filter_lines_join h, mapM_ok] at hparsed
  rw [← hparsed.length_eq, List.length_map]

theorem acceptLines_append {maxRowLen : ℕ} {lines lines' rows rows' : List String}
    (h : acceptLines maxRowLen lines = .ok rows) (h' : acceptLines maxRowLen lines' = .ok rows') :
    acceptLines maxRowLen (lines ++ lines') = .ok (rows ++ rows') := by
  simp only [acceptLines, bind_ok, pure_ok] at h h' ⊢
  obtain ⟨found, hfound, rfl⟩ := h
  obtain ⟨found', hfound', rfl⟩ := h'
  refine ⟨found ++ found', ?_, by simp [List.reduceOption, List.filterMap_append]⟩
  simp [List.mapM_append, hfound, hfound']

/-! ### The open row group -/

structure RowGroupBuffer where
  data : String
  rowCount : ℕ
  rawBytes : ℕ
  deriving DecidableEq, Repr

namespace RowGroupBuffer

/-- `RowGroupBuffer::default`, and what `clear` leaves. -/
def empty : RowGroupBuffer := ⟨"", 0, 0⟩

def pushLine (line : String) (buffer : RowGroupBuffer) : RowGroupBuffer :=
  ⟨buffer.data ++ line, buffer.rowCount + 1, buffer.rawBytes + line.utf8ByteSize⟩

def isEmpty (buffer : RowGroupBuffer) : Bool := buffer.rowCount == 0

def wouldExceed (line : String) (options : BlockOptions) (buffer : RowGroupBuffer) : Bool :=
  if buffer.isEmpty then false
  else options.maxRowsPerBlock < buffer.rowCount + 1 ||
    options.maxUncompressedBytesPerBlock < buffer.rawBytes + line.utf8ByteSize

def reachedLimit (options : BlockOptions) (buffer : RowGroupBuffer) : Bool :=
  options.maxRowsPerBlock ≤ buffer.rowCount ||
    options.maxUncompressedBytesPerBlock ≤ buffer.rawBytes

/-- The buffer that holds some rows. -/
def ofRows (rows : List String) : RowGroupBuffer :=
  ⟨String.join rows, rows.length, (rows.map String.utf8ByteSize).sum⟩

theorem pushLine_ofRows (rows : List String) (row : String) :
    (ofRows rows).pushLine row = ofRows (rows ++ [row]) := by
  simp [pushLine, ofRows, String.join_append, String.join_cons]

theorem isEmpty_ofRows {rows : List String} : (ofRows rows).isEmpty = true ↔ rows = [] := by
  rw [isEmpty, beq_iff_eq]
  exact List.length_eq_zero_iff

theorem ne_nil_of_wouldExceed {rows : List String} {row : String} {options : BlockOptions}
    (h : (ofRows rows).wouldExceed row options) : rows ≠ [] := by
  intro hnil
  rw [wouldExceed, if_pos (isEmpty_ofRows.2 hnil)] at h
  cases h

end RowGroupBuffer

/-! ### Taking in lines -/

section

variable {σ : Type} (options : BlockOptions) (current : σ → RowGroupBuffer)
  (pushLine : String → σ → σ) (flush : EStateM CompactError σ Unit)

/-- Close the open row group if `test` holds of it. -/
def flushIf (test : RowGroupBuffer → Bool) : EStateM CompactError σ Unit := do
  let s ← get
  if test (current s) then flush else pure ()

/-- Add a row, and close row groups before and after it as the options ask. -/
def addRow (row : String) : EStateM CompactError σ Unit := do
  flushIf current flush (RowGroupBuffer.wouldExceed row options)
  modify (pushLine row)
  flushIf current flush (RowGroupBuffer.reachedLimit options)

/-- Take in one line. -/
def addLine (line : String) : EStateM CompactError σ Unit := do
  let row ← acceptLine options.maxUncompressedBytesPerBlock line
  match row with
  | none => pure ()
  | some row => addRow options current pushLine flush row

variable {options current pushLine flush}

theorem flushIf_ok {test : RowGroupBuffer → Bool} {s s' : σ} {u : Unit} :
    flushIf current flush test s = .ok u s' ↔
      if test (current s) then flush s = .ok u s' else s = s' := by
  rw [flushIf, Method.bind_ok]
  simp only [Method.get_ok]
  constructor
  · intro h
    obtain ⟨_, _, ⟨rfl, rfl⟩, h⟩ := h
    split at h
    · rw [if_pos ‹_›]
      exact h
    · rw [if_neg ‹_›]
      exact (Method.pure_ok.1 h).2
  · intro h
    refine ⟨s, s, ⟨rfl, rfl⟩, ?_⟩
    split at h
    · rw [if_pos ‹_›]
      exact h
    · rw [if_neg ‹_›, h]
      exact Method.pure_ok.2 ⟨rfl, rfl⟩

theorem flushIf_error {test : RowGroupBuffer → Bool} {s s' : σ} {e : CompactError} :
    flushIf current flush test s = .error e s' ↔
      test (current s) = true ∧ flush s = .error e s' := by
  rw [flushIf, Method.bind_error]
  simp only [Method.get_ok, Method.get_error, false_or]
  constructor
  · rintro ⟨_, _, ⟨rfl, rfl⟩, h⟩
    split at h
    · exact ⟨‹_›, h⟩
    · exact absurd h (by simp)
  · rintro ⟨htest, h⟩
    exact ⟨s, s, ⟨rfl, rfl⟩, by rwa [if_pos htest]⟩

theorem addRow_ok {row : String} {s s' : σ} {u : Unit} :
    addRow options current pushLine flush row s = .ok u s' ↔
      ∃ s₁, flushIf current flush (RowGroupBuffer.wouldExceed row options) s = .ok () s₁ ∧
        flushIf current flush (RowGroupBuffer.reachedLimit options) (pushLine row s₁) =
          .ok () s' := by
  simp only [addRow, Method.bind_ok, Method.modify_ok]
  constructor
  · intro h
    obtain ⟨_, s₁, hfirst, _, _, rfl, hlast⟩ := h
    exact ⟨s₁, hfirst, hlast⟩
  · intro h
    obtain ⟨s₁, hfirst, hlast⟩ := h
    exact ⟨(), s₁, hfirst, (), _, rfl, hlast⟩

/-- Adding a row fails where one of the two flushes does. -/
theorem addRow_error {row : String} {s s' : σ} {e : CompactError} :
    addRow options current pushLine flush row s = .error e s' ↔
      flushIf current flush (RowGroupBuffer.wouldExceed row options) s = .error e s' ∨
        ∃ s₁, flushIf current flush (RowGroupBuffer.wouldExceed row options) s = .ok () s₁ ∧
          flushIf current flush (RowGroupBuffer.reachedLimit options) (pushLine row s₁) =
            .error e s' := by
  simp only [addRow, Method.bind_error, Method.modify_ok, Method.modify_error, false_or]
  constructor
  · rintro (hfirst | ⟨_, s₁, hfirst, _, _, rfl, hlast⟩)
    · exact Or.inl hfirst
    · exact Or.inr ⟨s₁, hfirst, hlast⟩
  · rintro (hfirst | ⟨s₁, hfirst, hlast⟩)
    · exact Or.inl hfirst
    · exact Or.inr ⟨(), s₁, hfirst, (), _, rfl, hlast⟩

/-- **Lines are taken in exactly when they are rows, and the rows are.** -/
theorem forM_addLine {lines : List String} {s s' : σ} {u : Unit} :
    lines.forM (addLine options current pushLine flush) s = .ok u s' ↔
      ∃ rows, acceptLines options.maxUncompressedBytesPerBlock lines = .ok rows ∧
        rows.forM (addRow options current pushLine flush) s = .ok () s' := by
  induction lines generalizing s with
  | nil => simp only [acceptLines_nil, exists_eq_left, Method.forM_nil]
  | cons line lines ih =>
      rw [Method.forM_cons]
      simp only [addLine, Method.bind_ok, Method.lift_ok, acceptLines_cons, ih]
      constructor
      · intro h
        obtain ⟨s₁, ⟨row, _, ⟨hrow, rfl⟩, hadd⟩, rows, hrows, hloop⟩ := h
        cases row with
        | none =>
            obtain ⟨_, rfl⟩ := Method.pure_ok.1 hadd
            exact ⟨rows, ⟨none, rows, hrow, hrows, rfl⟩, hloop⟩
        | some row =>
            exact ⟨row :: rows, ⟨some row, rows, hrow, hrows, rfl⟩,
              Method.forM_cons.2 ⟨s₁, hadd, hloop⟩⟩
      · intro h
        obtain ⟨_, ⟨row, rows, hrow, hrows, rfl⟩, hloop⟩ := h
        cases row with
        | none =>
            exact ⟨s, ⟨none, s, ⟨hrow, rfl⟩, Method.pure_ok.2 ⟨rfl, rfl⟩⟩, rows, hrows, hloop⟩
        | some row =>
            obtain ⟨s₁, hadd, hloop⟩ := Method.forM_cons.1 hloop
            exact ⟨s₁, ⟨some row, s, ⟨hrow, rfl⟩, hadd⟩, rows, hrows, hloop⟩

end

/-! ### Where rows are cut -/

/-- The rows of the closed row groups, and those of the open one. -/
structure Cut where
  groups : List (List String)
  current : List String
  deriving DecidableEq, Repr

namespace Cut

def empty : Cut := ⟨[], []⟩

def flush (cut : Cut) : Cut := ⟨cut.groups ++ [cut.current], []⟩

def flushIf (test : RowGroupBuffer → Bool) (cut : Cut) : Cut :=
  if test (RowGroupBuffer.ofRows cut.current) then cut.flush else cut

def push (row : String) (cut : Cut) : Cut := ⟨cut.groups, cut.current ++ [row]⟩

def add (options : BlockOptions) (cut : Cut) (row : String) : Cut :=
  ((cut.flushIf (RowGroupBuffer.wouldExceed row options)).push row).flushIf
    (RowGroupBuffer.reachedLimit options)

def finish (cut : Cut) : List (List String) :=
  if cut.current = [] then cut.groups else cut.flush.groups

def rows (cut : Cut) : List String := cut.groups.flatten ++ cut.current

theorem current_push_ne_nil {row : String} {cut : Cut} : (cut.push row).current ≠ [] := by
  simp [push]

theorem rows_flush (cut : Cut) : cut.flush.rows = cut.rows := by simp [flush, rows]

theorem rows_flushIf (test : RowGroupBuffer → Bool) (cut : Cut) :
    (cut.flushIf test).rows = cut.rows := by
  rw [flushIf]
  split
  · exact cut.rows_flush
  · rfl

theorem rows_push (row : String) (cut : Cut) : (cut.push row).rows = cut.rows ++ [row] := by
  simp [push, rows]

theorem rows_add (options : BlockOptions) (cut : Cut) (row : String) :
    (cut.add options row).rows = cut.rows ++ [row] := by
  rw [add, rows_flushIf, rows_push, rows_flushIf]

theorem rows_foldl_add (options : BlockOptions) (cut : Cut) (rows : List String) :
    (rows.foldl (add options) cut).rows = cut.rows ++ rows := by
  induction rows generalizing cut with
  | nil => exact (List.append_nil _).symm
  | cons row rows ih => rw [List.foldl_cons, ih, rows_add, List.append_assoc, List.singleton_append]

theorem flatten_finish (cut : Cut) : cut.finish.flatten = cut.rows := by
  rw [finish]
  split
  · rename_i h
    rw [rows, h, List.append_nil]
  · rw [← rows_flush, rows, flush, List.append_nil]

end Cut

/-- The row groups of some rows. -/
def cutRows (options : BlockOptions) (rows : List String) : List (List String) :=
  (rows.foldl (Cut.add options) Cut.empty).finish

/-- **Cutting rows into groups loses, repeats and moves none.** -/
theorem flatten_cutRows (options : BlockOptions) (rows : List String) :
    (cutRows options rows).flatten = rows := by
  rw [cutRows, Cut.flatten_finish, Cut.rows_foldl_add]
  rfl

/-- The rows of the row groups are rows. -/
theorem isRow_of_cutRows (options : BlockOptions) {maxRowLen : ℕ} {lines rows : List String}
    (h : acceptLines maxRowLen lines = .ok rows) :
    ∀ group ∈ cutRows options rows, ∀ row ∈ group, IsRow maxRowLen row := by
  intro group hgroup row hrow
  refine isRow_of_acceptLines h row ?_
  rw [← flatten_cutRows options rows]
  exact List.mem_flatten.2 ⟨group, hgroup, hrow⟩

/-! ### Who closes row groups cuts the rows at these places -/

section

variable {σ : Type} {options : BlockOptions} {current : σ → RowGroupBuffer}
  {pushLine : String → σ → σ} {flush : EStateM CompactError σ Unit}

/-- A state of type `σ` represents a cut: it shows the open row group, takes in rows, and closes the
open row group, which is not empty. -/
structure Represents (current : σ → RowGroupBuffer) (pushLine : String → σ → σ)
    (flush : EStateM CompactError σ Unit) (R : Cut → σ → Prop) : Prop where
  current_eq : ∀ cut s, R cut s → current s = RowGroupBuffer.ofRows cut.current
  push : ∀ cut s row, R cut s → R (cut.push row) (pushLine row s)
  flush : ∀ cut s s', R cut s → cut.current ≠ [] → flush s = .ok () s' → R cut.flush s'

variable {R : Cut → σ → Prop} (h : Represents current pushLine flush R)

include h

theorem Represents.flushIf {test : RowGroupBuffer → Bool} {cut : Cut} {s s' : σ}
    (htest : test (RowGroupBuffer.ofRows cut.current) → cut.current ≠ []) (hs : R cut s)
    (hrun : flushIf current flush test s = .ok () s') : R (cut.flushIf test) s' := by
  rw [flushIf_ok, h.current_eq cut s hs] at hrun
  rw [Cut.flushIf]
  split at hrun
  · rename_i hyes
    rw [if_pos hyes]
    exact h.flush cut s s' hs (htest hyes) hrun
  · rename_i hno
    rw [if_neg hno, ← hrun]
    exact hs

theorem Represents.addRow {cut : Cut} {s s' : σ} {row : String} (hs : R cut s)
    (hrun : addRow options current pushLine flush row s = .ok () s') :
    R (cut.add options row) s' := by
  obtain ⟨s₁, hfirst, hlast⟩ := addRow_ok.1 hrun
  have hs₁ := h.flushIf RowGroupBuffer.ne_nil_of_wouldExceed hs hfirst
  exact h.flushIf (fun _ => Cut.current_push_ne_nil) (h.push _ _ row hs₁) hlast

/-- **Adding rows closes row groups where `cutRows` cuts them.** -/
theorem Represents.forM_addRow {cut : Cut} {s s' : σ} {rows : List String} (hs : R cut s)
    (hrun : rows.forM (Streaming.addRow options current pushLine flush) s = .ok () s') :
    R (rows.foldl (Cut.add options) cut) s' := by
  refine Method.forM_invariant (P := fun done s => R (done.foldl (Cut.add options) cut) s) ?_
    [] hs hrun
  intro done row s s' hs hadd
  rw [List.foldl_append, List.foldl_cons, List.foldl_nil]
  exact h.addRow hs hadd

/-- Rows can be added where row groups can be closed. -/
theorem Represents.exists_forM_addRow {bound : ℕ}
    (hflush : ∀ cut s, R cut s → cut.current ≠ [] → cut.rows.length ≤ bound →
      ∃ s', flush s = .ok () s')
    {cut : Cut} {s : σ} {rows : List String} (hs : R cut s)
    (hbound : cut.rows.length + rows.length ≤ bound) :
    ∃ s', rows.forM (Streaming.addRow options current pushLine flush) s = .ok () s' := by
  have hflushIf : ∀ (test : RowGroupBuffer → Bool) cut s, R cut s →
      (test (RowGroupBuffer.ofRows cut.current) → cut.current ≠ []) → cut.rows.length ≤ bound →
      ∃ s', Streaming.flushIf current flush test s = .ok () s' := by
    intro test cut s hs htest hle
    simp only [flushIf_ok, h.current_eq cut s hs]
    by_cases hyes : test (RowGroupBuffer.ofRows cut.current) = true
    · obtain ⟨s', hs'⟩ := hflush cut s hs (htest hyes) hle
      exact ⟨s', by rw [if_pos hyes, hs']⟩
    · exact ⟨s, by rw [if_neg hyes]⟩
  induction rows generalizing cut s with
  | nil => exact ⟨s, Method.forM_nil.2 rfl⟩
  | cons row rows ih =>
      rw [List.length_cons] at hbound
      obtain ⟨s₁, hfirst⟩ := hflushIf (RowGroupBuffer.wouldExceed row options) cut s hs
        RowGroupBuffer.ne_nil_of_wouldExceed (by omega)
      have hs₁ := h.flushIf RowGroupBuffer.ne_nil_of_wouldExceed hs hfirst
      obtain ⟨s₂, hlast⟩ := hflushIf (RowGroupBuffer.reachedLimit options) _ _
        (h.push _ _ row hs₁) (fun _ => Cut.current_push_ne_nil)
        (by rw [Cut.rows_push, Cut.rows_flushIf, List.length_append, List.length_singleton]; omega)
      have hadd : Streaming.addRow options current pushLine flush row s = .ok () s₂ :=
        addRow_ok.2 ⟨s₁, hfirst, hlast⟩
      obtain ⟨s', hloop⟩ := ih (h.addRow hs hadd)
        (by rw [Cut.rows_add, List.length_append, List.length_singleton]; omega)
      exact ⟨s', Method.forM_cons.2 ⟨s₂, hadd, hloop⟩⟩

end

end CompactCore.Streaming
