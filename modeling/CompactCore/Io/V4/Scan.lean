/-
**Scanning `CMP4` files.**

A scan reads the footer, skips the row groups that cannot hold a match, decodes the columns that it
needs of the others, and renders the rows that match.  The footer is untrusted: what makes skipping
sound is that a row group that decodes has the counts and the ranges that its footer entry says.

Main definitions:

* `CompactCore.Io.V4.scanJsonl` — the scan, with `CompactCore.Io.V4.rowGroupMayMatch` and
  `CompactCore.Io.V4.rowMatches`;
* `CompactCore.Io.V4.decodeRows` — the rows of a file, row group by row group;
* `CompactCore.Io.V4.Predicate.holds` — what a predicate means on a row.

Main results:

* `CompactCore.Io.V4.scanJsonl_ok` — a full scan renders the rows of the file;
* `CompactCore.Io.V4.no_match_of_pruned` — **a skipped row group has no row that matches**;
* `CompactCore.Io.V4.scanJsonl_selected` — a scan renders the rows of the file that match, with the
  projected columns.
-/

import CompactCore.Io.V4.File
import CompactCore.Reference

set_option relaxedAutoImplicit false
set_option autoImplicit false

namespace CompactCore.Io.V4

open Wire CompactError Format Format.V3 Format.V4 Io.V3

/-! ### Predicates and projections -/

inductive U64PredicateOp
  | eq (value : UInt64)
  | lt (value : UInt64)
  | le (value : UInt64)
  | gt (value : UInt64)
  | ge (value : UInt64)
  deriving DecidableEq, Repr

inductive Predicate
  | u64 (column : String) (op : U64PredicateOp)
  | isNull (column : String)
  deriving DecidableEq, Repr

structure ScanResult where
  jsonl : String
  rowGroupsScanned : ℕ
  rowGroupsPruned : ℕ
  deriving DecidableEq, Repr

structure DecodedSelection where
  name : String
  decoded : V3.DecodedColumn
  render : Bool
  deriving DecidableEq, Repr

def Predicate.column : Predicate → String
  | .u64 column _ => column
  | .isNull column => column

def predicateColumn (predicate : Option Predicate) : Option String :=
  predicate.map Predicate.column

def findColumn (columns : List ColumnSchema) (name : String) : Option ColumnSchema :=
  columns.find? (·.name == name)

/-- The loop over the projected names, with the names before the current one. -/
def selectFrom (columns : List ColumnSchema) (seen : List String) :
    List String → Result (List ColumnSchema)
  | [] => .ok []
  | name :: names => do
      failIf (name ∈ seen) (invalidInput "cmp4 projection contains duplicate column")
      let column ← okOr (invalidInput "cmp4 projection column does not exist")
        (findColumn columns name)
      let selected ← selectFrom columns (name :: seen) names
      return column :: selected

def selectProjection (columns : List ColumnSchema) (projection : List String) :
    Result (List ColumnSchema) :=
  if projection = [] then .ok columns else selectFrom columns [] projection

def validatePredicate (columns : List ColumnSchema) : Option Predicate → Result Unit
  | none => .ok ()
  | some predicate => do
      let column ← okOr (invalidInput "cmp4 predicate column does not exist")
        (findColumn columns predicate.column)
      match predicate with
      | .u64 _ _ =>
          failIf (column.valueType ≠ .u64)
            (invalidInput "cmp4 u64 predicate requires a u64 column")
      | .isNull _ => .ok ()

def U64PredicateOp.holds (op : U64PredicateOp) (value : UInt64) : Bool :=
  match op with
  | .eq expected => value == expected
  | .lt expected => value < expected
  | .le expected => value ≤ expected
  | .gt expected => expected < value
  | .ge expected => expected ≤ value

/-- Whether a range of values may have one for which the comparison holds. -/
def U64PredicateOp.mayHold (op : U64PredicateOp) (min max : UInt64) : Bool :=
  match op with
  | .eq value => min ≤ value && value ≤ max
  | .lt value => min < value
  | .le value => min ≤ value
  | .gt value => value < max
  | .ge value => value ≤ max

/-! ### Decoding a row group -/

def validateFooterColumnMatchesMetadata (footerColumn : ColumnIndexEntry)
    (metadata : ColumnChunkMetadata) : Result Unit :=
  failIf (footerColumn.name ≠ metadata.name ∨ footerColumn.valueCount ≠ metadata.valueCount ∨
      footerColumn.nullCount ≠ metadata.nullCount ∨
      footerColumn.statisticsMetadata ≠ metadata.statisticsMetadata ∨
      footerColumn.payloadLen ≠ metadata.compressedSize)
    (invalidInput "cmp4 footer column does not match metadata")

def decodeFooterColumn (data : List UInt8) (rowGroup : RowGroupIndexEntry)
    (footerColumn : ColumnIndexEntry) (schema : ColumnSchema) : Result V3.DecodedColumn := do
  let metadataBytes ← checkedSlice data footerColumn.metadataOffset footerColumn.metadataLen
    "cmp4 column metadata is truncated"
  let (metadata, consumed) ← decodeColumnMetadata metadataBytes
  failIf (consumed ≠ metadataBytes.length)
    (invalidInput "cmp4 column metadata has trailing bytes")
  let rowCount ← tryUsize rowGroup.rowCount "cmp4 row count is too large"
  validateMetadataAgainstSchema metadata schema rowCount
  validateFooterColumnMatchesMetadata footerColumn metadata
  let payload ← checkedSlice data footerColumn.payloadOffset footerColumn.payloadLen
    "cmp4 column payload is truncated"
  decodeColumn metadata payload

/-- Decode the column of a row group that a column of the schema names. -/
def decodeSchemaColumn (data : List UInt8) (rowGroup : RowGroupIndexEntry)
    (schema : ColumnSchema) : Result V3.DecodedColumn := do
  let footerColumn ← okOr (invalidInput "cmp4 projected column is missing from row group")
    (rowGroup.columns.find? (·.name == schema.name))
  decodeFooterColumn data rowGroup footerColumn schema

/-- Decode one required column. -/
def decodeRequired (data : List UInt8) (rowGroup : RowGroupIndexEntry)
    (schemaColumns projectedColumns : List ColumnSchema) (name : String) :
    Result DecodedSelection := do
  let schema ← okOr (invalidInput "cmp4 projected column does not match schema")
    ((findColumn projectedColumns name).or (findColumn schemaColumns name))
  let decoded ← decodeSchemaColumn data rowGroup schema
  return ⟨schema.name, decoded, projectedColumns.any (·.name == schema.name)⟩

/-- The projected columns, and the column of the predicate if it is not one of them. -/
def requiredNames (projectedColumns : List ColumnSchema) (predicate : Option Predicate) :
    List String :=
  let names := projectedColumns.map (·.name)
  match predicateColumn predicate with
  | some column => if column ∈ names then names else names ++ [column]
  | none => names

section

variable [Crc32Fast]

def decodeRowGroupProjection (data : List UInt8) (rowGroup : RowGroupIndexEntry)
    (schemaColumns projectedColumns : List ColumnSchema) (predicate : Option Predicate)
    (verifyFullChecksum : Bool) : Result (List DecodedSelection) := do
  verifyRowGroup data rowGroup verifyFullChecksum
  (requiredNames projectedColumns predicate).mapM
    (decodeRequired data rowGroup schemaColumns projectedColumns)

end

/-! ### Matching and rendering -/

def rowMatches (decoded : List DecodedSelection) (rowIndex : ℕ) :
    Option Predicate → Result Bool
  | none => .ok true
  | some predicate => do
      let column ← okOr (invalidInput "cmp4 predicate column was not decoded")
        (decoded.find? (·.name == predicate.column))
      let value ← column.decoded.valueAt rowIndex
      match predicate with
      | .u64 _ op => return (value.asU64.map op.holds).getD false
      | .isNull _ => return value.isNull

/-- Whether a row group may hold a match, as far as its footer entry says. -/
def rowGroupMayMatch (rowGroup : RowGroupIndexEntry) : Option Predicate → Result Bool
  | none => .ok true
  | some predicate => do
      let footerColumn ← okOr (invalidInput "cmp4 predicate column is missing from row group")
        (rowGroup.columns.find? (·.name == predicate.column))
      match predicate with
      | .isNull _ => return 0 < footerColumn.nullCount
      | .u64 _ op => do
          let statistics ← Statistics.decode footerColumn.statisticsMetadata
          match statistics with
          | .u64 min max => return op.mayHold min max
          | _ => return true

/-- The value of a row in a projected column. -/
def projectedValue (decoded : List DecodedSelection) (rowIndex : ℕ) (column : ColumnSchema) :
    Result (String × Value) := do
  let decodedColumn ← okOr (invalidInput "cmp4 projected column was not decoded")
    (decoded.find? fun selection => selection.render && selection.name == column.name)
  let value ← decodedColumn.decoded.valueAt rowIndex
  return (column.name, value)

section

variable [SerdeJson]

/-- Render one row, if it matches. -/
def renderFilteredRow (projectedColumns : List ColumnSchema) (decoded : List DecodedSelection)
    (predicate : Option Predicate) (out : String) (rowIndex : ℕ) : Result String := do
  let matched ← rowMatches decoded rowIndex predicate
  if matched then do
    let members ← projectedColumns.mapM (projectedValue decoded rowIndex)
    return out ++ renderObject members ++ "\n"
  else return out

def renderFilteredRows (out : String) (projectedColumns : List ColumnSchema)
    (decoded : List DecodedSelection) (predicate : Option Predicate) : Result String :=
  let rowCount := (decoded.head?.map (·.decoded.len)).getD 0
  (List.range rowCount).foldlM (renderFilteredRow projectedColumns decoded predicate) out

variable [Crc32Fast]

/-- Scan one row group, or skip it. -/
def scanRowGroup (data : List UInt8) (columns projectedColumns : List ColumnSchema)
    (predicate : Option Predicate) (s : ScanResult) (rowGroup : RowGroupIndexEntry) :
    Result ScanResult := do
  let mayMatch ← rowGroupMayMatch rowGroup predicate
  if mayMatch then do
    let decoded ←
      decodeRowGroupProjection data rowGroup columns projectedColumns predicate true
    let jsonl ← renderFilteredRows s.jsonl projectedColumns decoded predicate
    return { s with jsonl := jsonl, rowGroupsScanned := s.rowGroupsScanned + 1 }
  else return { s with rowGroupsPruned := s.rowGroupsPruned + 1 }

/-- Scan with optional projection and predicate pushdown. -/
def scanJsonl (data : List UInt8) (schema : Schema) (projection : List String)
    (predicate : Option Predicate) : Result ScanResult := do
  let columns ← validateImplementedSchema schema
  let header ← Format.V4.decodeHeader data
  failIf (header.payload ≠ []) (unsupported "cmp4 header payload")
  let footer ← decodeFooter data
  let projectedColumns ← selectProjection columns projection
  validatePredicate columns predicate
  footer.rowGroups.foldlM (scanRowGroup data columns projectedColumns predicate) ⟨"", 0, 0⟩

/-- Decode all columns. -/
def decodeJsonl (data : List UInt8) (schema : Schema) : Result String := do
  let result ← scanJsonl data schema [] none
  return result.jsonl

/-- Decode only the requested columns. -/
def decodeJsonlProjected (data : List UInt8) (schema : Schema) (projection : List String) :
    Result String := do
  let result ← scanJsonl data schema projection none
  return result.jsonl

end

/-! ### The rows of a file -/

/-- The rows of a row group whose columns are decoded. -/
def selectionRows (decoded : List DecodedSelection) : List Map :=
  (List.range ((decoded.head?.map (·.decoded.len)).getD 0)).map fun i =>
    decoded.map fun selection => (selection.name, (selection.decoded.entries[i]?).getD .null)

/-- The rows of a file, row group by row group: all columns decoded, nothing skipped. -/
def decodeRows [Crc32Fast] (data : List UInt8) (schema : Schema) : Result (List (List Map)) := do
  let columns ← validateImplementedSchema schema
  let footer ← decodeFooter data
  footer.rowGroups.mapM fun rowGroup => do
    let decoded ← decodeRowGroupProjection data rowGroup columns columns none true
    return selectionRows decoded

/-- What a predicate means on a row. -/
def Predicate.holds (predicate : Predicate) (row : Map) : Bool :=
  match predicate with
  | .u64 column op => (((row.get column).bind Value.asU64).map op.holds).getD false
  | .isNull column => ((row.get column).getD .null).isNull

/-- The rows that an optional predicate selects. -/
def selects (predicate : Option Predicate) (row : Map) : Bool :=
  (predicate.map (·.holds row)).getD true

/-- A predicate on a column of a schema, which is a `u64` column if integers are compared. -/
def Predicate.On (predicate : Predicate) (columns : List ColumnSchema) : Prop :=
  match predicate with
  | .u64 name _ => ∃ column ∈ columns, column.name = name ∧ column.valueType = .u64
  | .isNull name => ∃ column ∈ columns, column.name = name

/-- The columns of a projection, in its order; all columns if it is empty. -/
def projectColumns (columns : List ColumnSchema) (projection : List String) : List ColumnSchema :=
  if projection = [] then columns else projection.filterMap (findColumn columns)

/-! ### Columns by name -/

theorem findColumn_some {columns : List ColumnSchema} {name : String} {column : ColumnSchema}
    (h : findColumn columns name = some column) : column ∈ columns ∧ column.name = name := by
  have hname := List.find?_some h
  exact ⟨List.mem_of_find?_eq_some h, by simpa using hname⟩

theorem findColumn_mem {columns : List ColumnSchema} (hnodup : (columns.map (·.name)).Nodup)
    {column : ColumnSchema} (h : column ∈ columns) :
    findColumn columns column.name = some column := by
  induction columns with
  | nil => cases h
  | cons c columns ih =>
      rw [List.map_cons, List.nodup_cons] at hnodup
      rw [findColumn, List.find?_cons]
      rcases List.mem_cons.1 h with rfl | hmem
      · simp
      · have hne : (c.name == column.name) = false := by
          rw [beq_eq_false_iff_ne]
          intro heq
          exact hnodup.1 (List.mem_map.2 ⟨column, hmem, heq.symm⟩)
        rw [hne]
        exact ih hnodup.2 hmem

theorem findColumn_isSome {columns : List ColumnSchema} (hnodup : (columns.map (·.name)).Nodup)
    {name : String} (h : ∃ column ∈ columns, column.name = name) :
    ∃ column ∈ columns, column.name = name ∧ findColumn columns name = some column := by
  obtain ⟨column, hmem, rfl⟩ := h
  exact ⟨column, hmem, rfl, findColumn_mem hnodup hmem⟩

/-- A predicate on the columns of a schema is accepted. -/
theorem validatePredicate_on {columns : List ColumnSchema} (hnodup : (columns.map (·.name)).Nodup)
    {predicate : Predicate} (h : predicate.On columns) :
    validatePredicate columns (some predicate) = .ok () := by
  cases predicate with
  | u64 name op =>
      obtain ⟨column, hmem, rfl, htype⟩ := h
      simp [validatePredicate, Predicate.column, findColumn_mem hnodup hmem, htype]
  | isNull name =>
      obtain ⟨column, hmem, rfl⟩ := h
      simp [validatePredicate, Predicate.column, findColumn_mem hnodup hmem]

theorem Predicate.On.mem {columns : List ColumnSchema} {predicate : Predicate}
    (h : predicate.On columns) : ∃ column ∈ columns, column.name = predicate.column := by
  cases predicate with
  | u64 name op =>
      obtain ⟨column, hmem, hname, -⟩ := h
      exact ⟨column, hmem, hname⟩
  | isNull name => exact h

theorem selectFrom_ok {columns : List ColumnSchema} (hnodup : (columns.map (·.name)).Nodup)
    {seen names : List String} (hnames : names.Nodup) (hseen : ∀ name ∈ names, name ∉ seen)
    (hmem : ∀ name ∈ names, ∃ column ∈ columns, column.name = name) :
    selectFrom columns seen names = .ok (names.filterMap (findColumn columns)) ∧
      (names.filterMap (findColumn columns)).map (·.name) = names := by
  induction names generalizing seen with
  | nil => exact ⟨rfl, rfl⟩
  | cons name names ih =>
      rw [List.nodup_cons] at hnames
      obtain ⟨column, hcol, hname, hfind⟩ := findColumn_isSome hnodup (hmem name List.mem_cons_self)
      have hseen' : ∀ n ∈ names, n ∉ name :: seen := by
        intro n hn hmem
        rcases List.mem_cons.1 hmem with rfl | hmem
        · exact hnames.1 hn
        · exact hseen n (List.mem_cons_of_mem _ hn) hmem
      obtain ⟨hsel, hmap⟩ := ih hnames.2 hseen' fun n hn => hmem n (List.mem_cons_of_mem _ hn)
      rw [List.filterMap_cons, hfind]
      constructor
      · simp only [selectFrom, bind_ok, failIf_ok, hfind, hsel, okOr_ok, pure_ok]
        exact ⟨(), hseen name List.mem_cons_self, column, rfl, _, rfl, rfl⟩
      · rw [List.map_cons, hmap, hname]

/-- A projection on distinct columns of a schema is accepted. -/
theorem selectProjection_ok {columns : List ColumnSchema} (hnodup : (columns.map (·.name)).Nodup)
    {projection : List String} (hnames : projection.Nodup)
    (hmem : ∀ name ∈ projection, ∃ column ∈ columns, column.name = name) :
    selectProjection columns projection = .ok (projectColumns columns projection) ∧
      ((projectColumns columns projection).map (·.name)).Nodup ∧
      ∀ column ∈ projectColumns columns projection, column ∈ columns := by
  unfold selectProjection projectColumns
  split
  · exact ⟨rfl, hnodup, fun _ h => h⟩
  · have hseen : ∀ name ∈ projection, name ∉ ([] : List String) := fun _ _ => List.not_mem_nil
    obtain ⟨hsel, hmap⟩ := selectFrom_ok hnodup hnames hseen hmem
    refine ⟨hsel, by rw [hmap]; exact hnames, ?_⟩
    intro column hcol
    obtain ⟨name, -, hfind⟩ := List.mem_filterMap.1 hcol
    exact (findColumn_some hfind).1

/-! ### Columns of a row group -/

/-- **A decoded column agrees with its footer entry**, whatever the file says. -/
theorem decodeSchemaColumn_ok {data : List UInt8} {rowGroup : RowGroupIndexEntry}
    {column : ColumnSchema} {decoded : V3.DecodedColumn}
    (h : decodeSchemaColumn data rowGroup column = .ok decoded) :
    ∃ footerColumn, rowGroup.columns.find? (·.name == column.name) = some footerColumn ∧
      decoded.len = rowGroup.rowCount.toNat ∧
      decoded.nullCount = footerColumn.nullCount.toNat ∧
      (∃ statistics, Statistics.decode footerColumn.statisticsMetadata = .ok statistics) ∧
      ∀ min max, Statistics.decode footerColumn.statisticsMetadata = .ok (.u64 min max) →
        ∀ value ∈ decoded.entries, ∀ v, value.asU64 = some v → min ≤ v ∧ v ≤ max := by
  simp only [decodeSchemaColumn, decodeFooterColumn, bind_ok, okOr_ok, Prod.exists, tryUsize_eq,
    Except.ok.injEq, exists_eq_left', validateFooterColumnMatchesMetadata, failIf_ok, not_or,
    not_not, validateMetadataAgainstSchema, tryU64_ok] at h
  obtain ⟨footerColumn, hfind, _, -, metadata, _, -, _, -, _, ⟨_, -, rowCount, hcount, hvalue⟩, _,
    ⟨-, -, hnull, hstats, -⟩, payload, -, hdec⟩ := h
  have hagrees := decodeColumn_ok hdec
  refine ⟨footerColumn, hfind, ?_, ?_, ?_, ?_⟩
  · rw [hagrees.len_eq, hvalue, hcount]
  · rw [hagrees.nullCount_eq, hnull]
  · rw [hstats]
    simp only [decodeColumn, validateStatistics, bind_ok] at hdec
    obtain ⟨_, ⟨statistics, hdecode, -⟩, -⟩ := hdec
    exact ⟨statistics, hdecode⟩
  · rw [hstats]
    exact hagrees.mem_range

/-- `table` has the decoded columns of a row group. -/
structure Decodes [Crc32Fast] (data : List UInt8) (rowGroup : RowGroupIndexEntry)
    (columns : List ColumnSchema) (table : ColumnSchema → V3.DecodedColumn) : Prop where
  verified : verifyRowGroup data rowGroup true = .ok ()
  decoded : ∀ column ∈ columns, decodeSchemaColumn data rowGroup column = .ok (table column)

/-- One row of a table. -/
def rowAt (columns : List ColumnSchema) (table : ColumnSchema → V3.DecodedColumn) (i : ℕ) : Map :=
  columns.map fun column => (column.name, ((table column).entries[i]?).getD .null)

/-- The rows of a table. -/
def tableRows (rowGroup : RowGroupIndexEntry) (columns : List ColumnSchema)
    (table : ColumnSchema → V3.DecodedColumn) : List Map :=
  (List.range rowGroup.rowCount.toNat).map (rowAt columns table)

theorem rowAt_get {columns : List ColumnSchema} (hnodup : (columns.map (·.name)).Nodup)
    {column : ColumnSchema} (h : column ∈ columns) (table : ColumnSchema → V3.DecodedColumn)
    (i : ℕ) :
    (rowAt columns table i).get column.name = some (((table column).entries[i]?).getD .null) := by
  induction columns with
  | nil => cases h
  | cons c columns ih =>
      rw [List.map_cons, List.nodup_cons] at hnodup
      rw [rowAt, List.map_cons, Map.get, List.lookup_cons]
      rcases List.mem_cons.1 h with rfl | hmem
      · simp
      · have hne : (column.name == c.name) = false := by
          rw [beq_eq_false_iff_ne]
          intro heq
          exact hnodup.1 (List.mem_map.2 ⟨column, hmem, heq⟩)
        rw [hne]
        exact ih hnodup.2 hmem

/-- The selection of a decoded column. -/
def selectionOf (projectedColumns : List ColumnSchema) (table : ColumnSchema → V3.DecodedColumn)
    (column : ColumnSchema) : DecodedSelection :=
  ⟨column.name, table column, projectedColumns.any (·.name == column.name)⟩

section

variable {data : List UInt8} {rowGroup : RowGroupIndexEntry} {columns : List ColumnSchema}
  {table : ColumnSchema → V3.DecodedColumn} {projectedColumns : List ColumnSchema}

/-- The required names are the names of columns of the schema. -/
theorem exists_required (hproj : ∀ column ∈ projectedColumns, column ∈ columns)
    {predicate : Option Predicate} (hpred : ∀ p, predicate = some p → p.On columns) :
    ∃ required : List ColumnSchema, required.map (·.name) =
        requiredNames projectedColumns predicate ∧ (∀ column ∈ required, column ∈ columns) ∧
      (∃ rest, required = projectedColumns ++ rest) ∧
      ∀ p, predicate = some p → ∃ column ∈ required, column.name = p.column := by
  cases predicate with
  | none =>
      exact ⟨projectedColumns, rfl, hproj, ⟨[], by rw [List.append_nil]⟩, by simp⟩
  | some p =>
      by_cases hmem : p.column ∈ projectedColumns.map (·.name)
      · refine ⟨projectedColumns, ?_, hproj, ⟨[], by rw [List.append_nil]⟩, ?_⟩
        · simp [requiredNames, predicateColumn, hmem]
        · intro q hq
          cases hq
          obtain ⟨column, hcol, hname⟩ := List.mem_map.1 hmem
          exact ⟨column, hcol, hname⟩
      · obtain ⟨column, hcol, hname⟩ := (hpred p rfl).mem
        refine ⟨projectedColumns ++ [column], ?_, ?_, ⟨[column], rfl⟩, ?_⟩
        · simp [requiredNames, predicateColumn, hmem, hname]
        · intro c hc
          rcases List.mem_append.1 hc with hc | hc
          · exact hproj c hc
          · rw [List.mem_singleton.1 hc]
            exact hcol
        · intro q hq
          cases hq
          exact ⟨column, by simp, hname⟩

/-- A required column is decoded. -/
theorem decodeRequired_ok (hnodup : (columns.map (·.name)).Nodup)
    (hproj : ∀ column ∈ projectedColumns, column ∈ columns) {column : ColumnSchema}
    (hcol : column ∈ columns)
    (hdec : decodeSchemaColumn data rowGroup column = .ok (table column)) :
    decodeRequired data rowGroup columns projectedColumns column.name =
      .ok (selectionOf projectedColumns table column) := by
  have hfind : (findColumn projectedColumns column.name).or (findColumn columns column.name) =
      some column := by
    cases h : findColumn projectedColumns column.name with
    | none => exact findColumn_mem hnodup hcol
    | some c =>
        obtain ⟨hmem, hname⟩ := findColumn_some h
        have hc := findColumn_mem hnodup (hproj c hmem)
        rw [hname, findColumn_mem hnodup hcol] at hc
        cases hc
        rfl
  simp only [decodeRequired, hfind, bind_ok, okOr_ok, pure_ok]
  exact ⟨column, rfl, _, hdec, rfl⟩

variable [Crc32Fast]

/-- **Decoding a row group** gives the required columns of its table. -/
theorem decodeRowGroupProjection_ok (hnodup : (columns.map (·.name)).Nodup)
    (hproj : ∀ column ∈ projectedColumns, column ∈ columns)
    (htable : Decodes data rowGroup columns table) {predicate : Option Predicate}
    {required : List ColumnSchema}
    (hrequired : required.map (·.name) = requiredNames projectedColumns predicate)
    (hmem : ∀ column ∈ required, column ∈ columns) :
    decodeRowGroupProjection data rowGroup columns projectedColumns predicate true =
      .ok (required.map (selectionOf projectedColumns table)) := by
  simp only [decodeRowGroupProjection, bind_ok, mapM_ok, ← hrequired, List.forall₂_map_left_iff,
    List.forall₂_map_right_iff, List.forall₂_same]
  refine ⟨(), htable.verified, ?_⟩
  intro column hcol
  exact decodeRequired_ok hnodup hproj (hmem column hcol) (htable.decoded column (hmem column hcol))

/-- A row group that decodes completely has a table. -/
theorem exists_table (hnodup : (columns.map (·.name)).Nodup) {decoded : List DecodedSelection}
    (h : decodeRowGroupProjection data rowGroup columns columns none true = .ok decoded) :
    ∃ table, Decodes data rowGroup columns table := by
  refine ⟨fun column => (decodeSchemaColumn data rowGroup column).toOption.getD (.bool []), ?_⟩
  simp only [decodeRowGroupProjection, bind_ok, mapM_ok, requiredNames, predicateColumn,
    Option.map_none, List.forall₂_map_left_iff] at h
  obtain ⟨_, hverify, hdec⟩ := h
  refine ⟨hverify, ?_⟩
  intro column hcol
  obtain ⟨i, hi, rfl⟩ := List.getElem_of_mem hcol
  have hi' : i < decoded.length := hdec.length_eq ▸ hi
  have hreq := (List.forall₂_iff_get.1 hdec).2 i hi hi'
  simp only [decodeRequired, bind_ok, okOr_ok, List.get_eq_getElem, findColumn_mem hnodup hcol,
    Option.or_some, Option.getD_some, Option.some.injEq, exists_eq_left'] at hreq
  obtain ⟨d, hd, -⟩ := hreq
  rw [hd]
  rfl

omit [Crc32Fast] in
/-- The table of a row group is rectangular. -/
theorem Decodes.len_eq [Crc32Fast] (h : Decodes data rowGroup columns table) {column : ColumnSchema}
    (hcol : column ∈ columns) : (table column).len = rowGroup.rowCount.toNat := by
  obtain ⟨_, -, hlen, -⟩ := decodeSchemaColumn_ok (h.decoded column hcol)
  exact hlen

/-! ### Matching and rendering a table -/

omit [Crc32Fast] in
/-- The value of a row of a table. -/
theorem valueAt_table {n i : ℕ} {decoded : V3.DecodedColumn} (hlen : decoded.len = n) (hi : i < n) :
    decoded.valueAt i = .ok ((decoded.entries[i]?).getD .null) := by
  have hi' : i < decoded.entries.length := by
    rw [V3.DecodedColumn.length_entries, hlen]
    exact hi
  rw [V3.DecodedColumn.valueAt_ok, List.getElem?_eq_getElem hi']
  rfl

omit [Crc32Fast] in
variable (table projectedColumns) in
/-- A selection is found by the name of its column. -/
theorem find?_selection (hnodup : (columns.map (·.name)).Nodup) {required : List ColumnSchema}
    (hmem : ∀ column ∈ required, column ∈ columns) {column : ColumnSchema}
    (hcol : column ∈ required) (test : DecodedSelection → Bool)
    (htest : ∀ c, test (selectionOf projectedColumns table c) = true → c.name = column.name)
    (hself : test (selectionOf projectedColumns table column) = true) :
    (required.map (selectionOf projectedColumns table)).find? test =
      some (selectionOf projectedColumns table column) := by
  rw [List.find?_map]
  have hfind : required.find? (test ∘ selectionOf projectedColumns table) = some column := by
    cases h : required.find? (test ∘ selectionOf projectedColumns table) with
    | none => exact absurd hself (List.find?_eq_none.1 h column hcol)
    | some c =>
        have hc' : test (selectionOf projectedColumns table c) = true := by
          simpa using List.find?_some h
        have hname := htest c hc'
        have hc := findColumn_mem hnodup (hmem c (List.mem_of_find?_eq_some h))
        rw [hname, findColumn_mem hnodup (hmem column hcol)] at hc
        cases hc
        rfl
  rw [hfind, Option.map_some]

/-- **Rows match** when the predicate holds of them. -/
theorem rowMatches_ok (hnodup : (columns.map (·.name)).Nodup)
    (htable : Decodes data rowGroup columns table) {predicate : Option Predicate}
    {required : List ColumnSchema} (hmem : ∀ column ∈ required, column ∈ columns)
    (hpred : ∀ p, predicate = some p → ∃ column ∈ required, column.name = p.column) {i : ℕ}
    (hi : i < rowGroup.rowCount.toNat) :
    rowMatches (required.map (selectionOf projectedColumns table)) i predicate =
      .ok (selects predicate (rowAt columns table i)) := by
  cases predicate with
  | none => rfl
  | some p =>
      obtain ⟨column, hcol, hname⟩ := hpred p rfl
      have hfind := find?_selection table projectedColumns hnodup
        hmem hcol (fun selection => selection.name == p.column)
        (fun c hc => by rw [hname]; exact beq_iff_eq.1 hc) (beq_iff_eq.2 hname)
      have hvalue := valueAt_table (htable.len_eq (hmem column hcol)) hi
      have hget := rowAt_get hnodup (hmem column hcol) table i
      rw [hname] at hget
      cases p with
      | u64 name op =>
          simp only [Predicate.column] at hfind hget
          simp [rowMatches, Predicate.column, hfind, selectionOf, hvalue, selects,
            Predicate.holds, hget]
      | isNull name =>
          simp only [Predicate.column] at hfind hget
          simp [rowMatches, Predicate.column, hfind, selectionOf, hvalue, selects,
            Predicate.holds, hget]

/-- **Rows are rendered** with their values in the projected columns. -/
theorem projectedValues_ok (hnodup : (columns.map (·.name)).Nodup)
    (htable : Decodes data rowGroup columns table) {required rest : List ColumnSchema}
    (hrequired : required = projectedColumns ++ rest)
    (hmem : ∀ column ∈ required, column ∈ columns) {i : ℕ} (hi : i < rowGroup.rowCount.toNat) :
    projectedColumns.mapM (projectedValue (required.map (selectionOf projectedColumns table)) i) =
      .ok (projectedColumns.map fun column =>
        (column.name, valueOf column (rowAt columns table i))) := by
  rw [mapM_ok, List.forall₂_map_right_iff, List.forall₂_same]
  intro column hcol
  have hreq : column ∈ required := by
    rw [hrequired]
    exact List.mem_append_left _ hcol
  have hany : projectedColumns.any (·.name == column.name) = true :=
    List.any_eq_true.2 ⟨column, hcol, by simp⟩
  have hfind := find?_selection table projectedColumns hnodup hmem
    hreq (fun selection => selection.render && selection.name == column.name)
    (fun c hc => by
      rw [Bool.and_eq_true] at hc
      exact beq_iff_eq.1 hc.2) (by simp [selectionOf, hany])
  have hvalue := valueAt_table (htable.len_eq (hmem column hreq)) hi
  have hget := rowAt_get hnodup (hmem column hreq) table i
  simp [projectedValue, hfind, selectionOf, hvalue, valueOf, hget]

variable [SerdeJson]

/-- **Rendering a row group** renders the rows of its table that are selected. -/
theorem renderFilteredRows_ok (hnodup : (columns.map (·.name)).Nodup)
    (htable : Decodes data rowGroup columns table) {predicate : Option Predicate}
    {required rest : List ColumnSchema} (hne : required ≠ [])
    (hrequired : required = projectedColumns ++ rest)
    (hmem : ∀ column ∈ required, column ∈ columns)
    (hpred : ∀ p, predicate = some p → ∃ column ∈ required, column.name = p.column)
    (out : String) :
    renderFilteredRows out projectedColumns (required.map (selectionOf projectedColumns table))
        predicate =
      .ok (out ++ renderRows projectedColumns
        ((tableRows rowGroup columns table).filter (selects predicate))) := by
  have hcount : (((required.map (selectionOf projectedColumns table)).head?.map
      (·.decoded.len)).getD 0) = rowGroup.rowCount.toNat := by
    cases required with
    | nil => exact absurd rfl hne
    | cons column required => exact htable.len_eq (hmem column List.mem_cons_self)
  rw [renderFilteredRows, hcount, foldlM_render (fun i => selects predicate (rowAt columns table i))
    (fun i => renderRow projectedColumns (rowAt columns table i))]
  · rw [tableRows, renderRows, List.filter_map, List.map_map]
    rfl
  · intro out i hi
    have hi' := List.mem_range.1 hi
    rw [renderFilteredRow, rowMatches_ok hnodup htable hmem hpred hi']
    simp only [bind, Except.bind]
    split
    · rw [projectedValues_ok hnodup htable hrequired hmem hi']
      rfl
    · rfl

/-! ### Skipping row groups -/

omit [Crc32Fast] [SerdeJson] in
/-- A comparison that holds of a value of a range may hold in the range. -/
theorem U64PredicateOp.mayHold_of_holds {op : U64PredicateOp} {value min max : UInt64}
    (hmin : min ≤ value) (hmax : value ≤ max) (h : op.holds value = true) :
    op.mayHold min max = true := by
  rw [UInt64.le_iff_toNat_le] at hmin hmax
  cases op <;> simp only [holds, mayHold, beq_iff_eq, Bool.and_eq_true, decide_eq_true_eq,
    UInt64.le_iff_toNat_le, UInt64.lt_iff_toNat_lt] at h ⊢
  case eq expected =>
    rw [← h]
    exact ⟨hmin, hmax⟩
  all_goals omega

omit [SerdeJson] in
/-- **A skipped row group has no row that matches**, and asking does not fail. -/
theorem no_match_of_pruned (hnodup : (columns.map (·.name)).Nodup)
    (htable : Decodes data rowGroup columns table) {predicate : Predicate}
    (hon : predicate.On columns) :
    ∃ mayMatch, rowGroupMayMatch rowGroup (some predicate) = .ok mayMatch ∧
      (mayMatch = false →
        ∀ row ∈ tableRows rowGroup columns table, predicate.holds row = false) := by
  obtain ⟨column, hcol, hname⟩ := hon.mem
  obtain ⟨footerColumn, hfind, hlen, hnulls, ⟨statistics, hstats⟩, hrange⟩ :=
    decodeSchemaColumn_ok (htable.decoded column hcol)
  rw [hname] at hfind
  -- the value of a row is an entry of the column of the predicate
  have hrow : ∀ row ∈ tableRows rowGroup columns table, ∃ value ∈ (table column).entries,
      row.get predicate.column = some value := by
    intro row hrow
    obtain ⟨i, hi, rfl⟩ := List.mem_map.1 hrow
    have hi' : i < (table column).entries.length := by
      rw [V3.DecodedColumn.length_entries, hlen]
      exact List.mem_range.1 hi
    refine ⟨_, List.getElem_mem hi', ?_⟩
    rw [← hname, rowAt_get hnodup hcol, List.getElem?_eq_getElem hi', Option.getD_some]
  cases predicate with
  | isNull name =>
      refine ⟨decide (0 < footerColumn.nullCount), by
        simp only [rowGroupMayMatch, hfind]; rfl, ?_⟩
      intro hmay row hmem
      obtain ⟨value, hvalue, hget⟩ := hrow row hmem
      have hzero : (table column).nullCount = 0 := by
        rw [decide_eq_false_iff_not, UInt64.lt_iff_toNat_lt] at hmay
        rw [hnulls]
        exact Nat.eq_zero_of_not_pos hmay
      rw [← V3.DecodedColumn.countP_isNull, List.countP_eq_zero] at hzero
      simp only [Predicate.column] at hget
      simpa [Predicate.holds, hget] using hzero value hvalue
  | u64 name op =>
      simp only [rowGroupMayMatch, hfind, bind_ok, okOr_ok, hstats, Option.some.injEq,
        Except.ok.injEq, exists_eq_left']
      cases statistics with
      | u64 min max =>
          refine ⟨op.mayHold min max, rfl, ?_⟩
          intro hmay row hmem
          obtain ⟨value, hvalue, hget⟩ := hrow row hmem
          simp only [Predicate.column] at hget
          simp only [Predicate.holds, hget, Option.bind_some]
          cases hv : value.asU64 with
          | none => rfl
          | some v =>
              obtain ⟨hmin, hmax⟩ := hrange min max hstats value hvalue v hv
              rw [Option.map_some, Option.getD_some, Bool.eq_false_iff]
              intro hholds
              rw [U64PredicateOp.mayHold_of_holds hmin hmax hholds] at hmay
              cases hmay
      | none | bool | string => exact ⟨true, rfl, by simp⟩

/-- Scanning a row group never fails, and adds the rows that match. -/
theorem scanRowGroup_ok (hnodup : (columns.map (·.name)).Nodup)
    (htable : Decodes data rowGroup columns table) (hne : projectedColumns ≠ [])
    (hproj : ∀ column ∈ projectedColumns, column ∈ columns) {predicate : Option Predicate}
    (hon : ∀ p, predicate = some p → p.On columns) (s : ScanResult) :
    ∃ s', scanRowGroup data columns projectedColumns predicate s rowGroup = .ok s' ∧
      s'.jsonl = s.jsonl ++ renderRows projectedColumns
        ((tableRows rowGroup columns table).filter (selects predicate)) ∧
      s'.rowGroupsScanned + s'.rowGroupsPruned = s.rowGroupsScanned + s.rowGroupsPruned + 1 := by
  have hmay : ∃ mayMatch, rowGroupMayMatch rowGroup predicate = .ok mayMatch ∧
      (mayMatch = false → ∀ row ∈ tableRows rowGroup columns table,
        selects predicate row = false) := by
    cases predicate with
    | none => exact ⟨true, rfl, by simp⟩
    | some p => exact no_match_of_pruned hnodup htable (hon p rfl)
  obtain ⟨mayMatch, hok, hnone⟩ := hmay
  obtain ⟨required, hnames, hmem, ⟨rest, hrest⟩, hpred⟩ := exists_required hproj hon
  cases mayMatch with
  | false =>
      refine ⟨{ s with rowGroupsPruned := s.rowGroupsPruned + 1 }, ?_, ?_, ?_⟩
      · simp only [scanRowGroup, hok]
        rfl
      · have hempty : (tableRows rowGroup columns table).filter (selects predicate) = [] :=
          List.filter_eq_nil_iff.2 fun row hrow => by rw [hnone rfl row hrow]; simp
        rw [hempty]
        exact String.append_empty.symm
      · exact (Nat.add_assoc _ _ _).symm
  | true =>
      have hne' : required ≠ [] := by
        rw [hrest]
        exact List.append_ne_nil_of_left_ne_nil hne _
      have hdec := decodeRowGroupProjection_ok hnodup hproj htable hnames hmem
      have hrender := renderFilteredRows_ok hnodup htable hne' hrest hmem hpred s.jsonl
      refine ⟨{ s with
        jsonl := s.jsonl ++ renderRows projectedColumns
          ((tableRows rowGroup columns table).filter (selects predicate))
        rowGroupsScanned := s.rowGroupsScanned + 1 }, ?_, rfl, ?_⟩
      · simp only [scanRowGroup, hok, bind_ok, Except.ok.injEq, exists_eq_left', ↓reduceIte, hdec,
          hrender, pure_ok]
      · exact Nat.add_right_comm _ _ _

/-! ### Scanning the row groups of a file -/

/-- The tables of the row groups of a file. -/
def Tables (data : List UInt8) (columns : List ColumnSchema)
    (rowGroups : List RowGroupIndexEntry) (tables : List (ColumnSchema → V3.DecodedColumn)) :
    Prop :=
  List.Forall₂ (fun rowGroup table => Decodes data rowGroup columns table) rowGroups tables

/-- The rows of row groups, row group by row group. -/
def groupsRows (rowGroups : List RowGroupIndexEntry) (columns : List ColumnSchema)
    (tables : List (ColumnSchema → V3.DecodedColumn)) : List (List Map) :=
  List.zipWith (fun rowGroup table => tableRows rowGroup columns table) rowGroups tables

/-- **The loop over the row groups** renders the rows that match. -/
theorem scanRowGroups_ok (hnodup : (columns.map (·.name)).Nodup)
    (hne : projectedColumns ≠ []) (hproj : ∀ column ∈ projectedColumns, column ∈ columns)
    {predicate : Option Predicate} (hon : ∀ p, predicate = some p → p.On columns)
    {rowGroups : List RowGroupIndexEntry} {tables : List (ColumnSchema → V3.DecodedColumn)}
    (htables : Tables data columns rowGroups tables) (s : ScanResult) :
    ∃ s', rowGroups.foldlM (scanRowGroup data columns projectedColumns predicate) s = .ok s' ∧
      s'.jsonl = s.jsonl ++ renderRows projectedColumns
        ((groupsRows rowGroups columns tables).flatten.filter (selects predicate)) ∧
      s'.rowGroupsScanned + s'.rowGroupsPruned =
        s.rowGroupsScanned + s.rowGroupsPruned + rowGroups.length := by
  induction htables generalizing s with
  | nil => exact ⟨s, rfl, by simp [groupsRows, renderRows], rfl⟩
  | @cons rowGroup table rowGroups tables htable _ ih =>
      obtain ⟨s₁, hstep, hjsonl₁, hcount₁⟩ := scanRowGroup_ok hnodup htable hne hproj hon s
      obtain ⟨s₂, hloop, hjsonl₂, hcount₂⟩ := ih s₁
      refine ⟨s₂, ?_, ?_, ?_⟩
      · rw [List.foldlM_cons, hstep]
        exact hloop
      · have hrows : groupsRows (rowGroup :: rowGroups) columns (table :: tables) =
            tableRows rowGroup columns table :: groupsRows rowGroups columns tables := rfl
        rw [hjsonl₂, hjsonl₁, hrows, List.flatten_cons, List.filter_append, renderRows_append,
          String.append_assoc]
      · rw [hcount₂, hcount₁, List.length_cons]
        omega

omit [SerdeJson] in
theorem Tables.no_match_of_pruned {rowGroups : List RowGroupIndexEntry}
    {tables : List (ColumnSchema → V3.DecodedColumn)} (h : Tables data columns rowGroups tables)
    (hnodup : (columns.map (·.name)).Nodup) {predicate : Predicate} (hon : predicate.On columns) :
    List.Forall₂ (fun rowGroup rows => rowGroupMayMatch rowGroup (some predicate) = .ok false →
      ∀ row ∈ rows, predicate.holds row = false) rowGroups
        (groupsRows rowGroups columns tables) := by
  induction h with
  | nil => exact .nil
  | @cons rowGroup table rowGroups tables htable _ ih =>
      refine .cons ?_ ih
      intro hpruned
      obtain ⟨mayMatch, hmay, hnone⟩ := V4.no_match_of_pruned hnodup htable hon
      rw [hpruned] at hmay
      cases hmay
      exact hnone rfl

/-- A file whose row groups are all decoded has tables. -/
theorem exists_tables (hnodup : (columns.map (·.name)).Nodup)
    {rowGroups : List RowGroupIndexEntry} {s s' : ScanResult}
    (h : rowGroups.foldlM (scanRowGroup data columns columns none) s = .ok s') :
    ∃ tables, Tables data columns rowGroups tables := by
  induction rowGroups generalizing s with
  | nil => exact ⟨[], .nil⟩
  | cons rowGroup rowGroups ih =>
      simp only [List.foldlM_cons, bind_ok] at h
      obtain ⟨s₁, hstep, hloop⟩ := h
      simp only [scanRowGroup, rowGroupMayMatch, bind_ok, Except.ok.injEq, exists_eq_left',
        ↓reduceIte] at hstep
      obtain ⟨decoded, hdec, -⟩ := hstep
      obtain ⟨table, htable⟩ := exists_table hnodup hdec
      obtain ⟨tables, htables⟩ := ih hloop
      exact ⟨table :: tables, .cons htable htables⟩

omit [SerdeJson] in
/-- The rows of a decoded row group are the rows of its table. -/
theorem selectionRows_eq (hne : columns ≠ []) (htable : Decodes data rowGroup columns table) :
    selectionRows (columns.map (selectionOf columns table)) = tableRows rowGroup columns table := by
  cases columns with
  | nil => exact absurd rfl hne
  | cons column columns =>
      have hlen := htable.len_eq List.mem_cons_self
      rw [selectionRows, tableRows, List.map_cons, List.head?_cons, Option.map_some,
        Option.getD_some, selectionOf, hlen]
      refine List.map_congr_left fun i _ => ?_
      rw [rowAt, List.map_cons, List.map_cons, List.map_map]
      rfl

omit [SerdeJson] in
/-- The rows of a file are the rows of its tables. -/
theorem decodeRows_ok {schema : Schema} {footer : FooterIndex}
    (hschema : validateImplementedSchema schema = .ok schema.columns)
    (hfooter : decodeFooter data = .ok footer) {tables : List (ColumnSchema → V3.DecodedColumn)}
    (htables : Tables data schema.columns footer.rowGroups tables) :
    decodeRows data schema = .ok (groupsRows footer.rowGroups schema.columns tables) := by
  obtain ⟨-, hne, hnodup⟩ := validateImplementedSchema_ok hschema
  simp only [decodeRows, hschema, hfooter, bind_ok, Except.ok.injEq, exists_eq_left', mapM_ok,
    pure_ok]
  generalize footer.rowGroups = rowGroups at htables
  induction htables with
  | nil => exact .nil
  | @cons rowGroup table rowGroups tables htable _ ih =>
      refine .cons ⟨_, decodeRowGroupProjection_ok hnodup (fun _ h => h) htable rfl
        (fun _ h => h), ?_⟩ ih
      exact selectionRows_eq hne htable

/-! ### Scanning a file -/

/-- What a scan that reaches the row groups has read. -/
structure Opened (data : List UInt8) (schema : Schema) (footer : FooterIndex) : Prop where
  schema : validateImplementedSchema schema = .ok schema.columns
  header : ∃ header, Format.V4.decodeHeader data = .ok header ∧ header.payload = []
  footer : decodeFooter data = .ok footer

omit [Crc32Fast] [SerdeJson] in
theorem projectColumns_ne {columns : List ColumnSchema} (hne : columns ≠ [])
    {projection : List String}
    (hmem : ∀ name ∈ projection, ∃ column ∈ columns, column.name = name)
    (hnodup : (columns.map (·.name)).Nodup) : projectColumns columns projection ≠ [] := by
  unfold projectColumns
  split
  · exact hne
  · rename_i hproj
    cases projection with
    | nil => exact absurd rfl hproj
    | cons name names =>
        obtain ⟨column, -, -, hfind⟩ := findColumn_isSome hnodup (hmem name List.mem_cons_self)
        rw [List.filterMap_cons, hfind]
        exact List.cons_ne_nil _ _

/-- **A scan** renders the rows of the tables that match, with the projected columns. -/
theorem scanJsonl_ok {schema : Schema} {footer : FooterIndex} (hopen : Opened data schema footer)
    {tables : List (ColumnSchema → V3.DecodedColumn)}
    (htables : Tables data schema.columns footer.rowGroups tables)
    {predicate : Option Predicate} (hon : ∀ p, predicate = some p → p.On schema.columns)
    {projection : List String} (hnames : projection.Nodup)
    (hmem : ∀ name ∈ projection, ∃ column ∈ schema.columns, column.name = name) :
    ∃ result, scanJsonl data schema projection predicate = .ok result ∧
      result.jsonl = renderRows (projectColumns schema.columns projection)
        ((groupsRows footer.rowGroups schema.columns tables).flatten.filter (selects predicate)) ∧
      result.rowGroupsScanned + result.rowGroupsPruned = footer.rowGroups.length := by
  obtain ⟨-, hne, hnodup⟩ := validateImplementedSchema_ok hopen.schema
  obtain ⟨hselect, -, hproj⟩ := selectProjection_ok hnodup hnames hmem
  have hvalid : validatePredicate schema.columns predicate = .ok () := by
    cases predicate with
    | none => rfl
    | some p => exact validatePredicate_on hnodup (hon p rfl)
  obtain ⟨result, hloop, hjsonl, hcount⟩ := scanRowGroups_ok hnodup
    (projectColumns_ne hne hmem hnodup) hproj hon htables ⟨"", 0, 0⟩
  obtain ⟨header, hheader, hpayload⟩ := hopen.header
  refine ⟨result, ?_, by simpa using hjsonl, by simpa using hcount⟩
  simp only [scanJsonl, hopen.schema, hheader, hopen.footer, hselect, hvalid, bind_ok,
    failIf_ok, not_not, Except.ok.injEq, exists_eq_left']
  exact ⟨(), hpayload, (), trivial, hloop⟩

/-- A file of which a full scan succeeds has tables. -/
theorem exists_opened {schema : Schema} {result : ScanResult}
    (h : scanJsonl data schema [] none = .ok result) :
    ∃ footer tables, Opened data schema footer ∧
      Tables data schema.columns footer.rowGroups tables := by
  simp only [scanJsonl, bind_ok, failIf_ok, not_not] at h
  obtain ⟨columns, hschema, header, hheader, _, hpayload, footer, hfooter, selected, hselect, _, -,
    hloop⟩ := h
  obtain ⟨rfl, -, hnodup⟩ := validateImplementedSchema_ok hschema
  simp only [selectProjection, ↓reduceIte, Except.ok.injEq] at hselect
  rw [← hselect] at hloop
  obtain ⟨tables, htables⟩ := exists_tables hnodup hloop
  exact ⟨footer, tables, ⟨hschema, ⟨header, hheader, hpayload⟩, hfooter⟩, htables⟩

/-- **Projection and predicate pushdown do not change the answer.**  Of a file that a full scan
reads, a scan renders the rows that satisfy the predicate, with the projected columns, and a row
group that it skips has no such row. -/
theorem scanJsonl_selected {schema : Schema} {full : ScanResult} {predicate : Predicate}
    {projection : List String} (hfull : scanJsonl data schema [] none = .ok full)
    (hon : predicate.On schema.columns) (hnames : projection.Nodup)
    (hmem : ∀ name ∈ projection, ∃ column ∈ schema.columns, column.name = name) :
    ∃ footer groups result, decodeFooter data = .ok footer ∧
      decodeRows data schema = .ok groups ∧
      full.jsonl = renderRows schema.columns groups.flatten ∧
      scanJsonl data schema projection (some predicate) = .ok result ∧
      result.jsonl = renderRows (projectColumns schema.columns projection)
        (groups.flatten.filter predicate.holds) ∧
      result.rowGroupsScanned + result.rowGroupsPruned = footer.rowGroups.length ∧
      List.Forall₂ (fun rowGroup rows =>
        rowGroupMayMatch rowGroup (some predicate) = .ok false →
          ∀ row ∈ rows, predicate.holds row = false) footer.rowGroups groups := by
  obtain ⟨footer, tables, hopen, htables⟩ := exists_opened hfull
  have hall : ∀ p, (none : Option Predicate) = some p → p.On schema.columns := fun _ h => by cases h
  obtain ⟨full', hfull', hjsonl', -⟩ := scanJsonl_ok hopen htables hall List.nodup_nil (by simp)
  rw [hfull] at hfull'
  cases hfull'
  have hsome : ∀ p, some predicate = some p → p.On schema.columns := fun p hp => by
    cases hp
    exact hon
  obtain ⟨result, hresult, hjsonl, hcount⟩ := scanJsonl_ok hopen htables hsome hnames hmem
  refine ⟨footer, _, result, hopen.footer, decodeRows_ok hopen.schema hopen.footer htables, ?_,
    hresult, hjsonl, hcount, ?_⟩
  · have hkeep : ∀ rows : List Map, rows.filter (selects none) = rows := fun rows =>
      List.filter_eq_self.2 fun _ _ => rfl
    rw [hjsonl', hkeep]
    rfl
  · obtain ⟨-, -, hnodup⟩ := validateImplementedSchema_ok hopen.schema
    exact htables.no_match_of_pruned hnodup hon

end

open scoped CompactCore.Reference

set_option maxRecDepth 4096 in
/-- Two row groups of one row, of which the first is skipped. -/
theorem scanJsonl_selected_two_rows : ∃ file footer groups result,
    encodeJsonl Reference.idLines (Reference.idSchema .auto) ⟨1⟩ = .ok file ∧
      decodeFooter file = .ok footer ∧ decodeRows file (Reference.idSchema .auto) = .ok groups ∧
      scanJsonl file (Reference.idSchema .auto) [] (some (.u64 "id" (.gt 1))) = .ok result ∧
      result.jsonl = renderRows (projectColumns (Reference.idSchema .auto).columns [])
        (groups.flatten.filter (Predicate.holds (.u64 "id" (.gt 1)))) ∧
      result.rowGroupsScanned + result.rowGroupsPruned = footer.rowGroups.length := by
  have hrun : ∃ file, encodeJsonl Reference.idLines (Reference.idSchema .auto) ⟨1⟩ = .ok file ∧
      (scanJsonl file (Reference.idSchema .auto) [] none).toOption.isSome = true :=
    Reference.exists_ok _ (by decide +kernel)
  obtain ⟨file, hencode, hscan⟩ := hrun
  obtain ⟨full, hfull⟩ := Option.isSome_iff_exists.1 hscan
  obtain ⟨footer, groups, result, hfooter, hgroups, -, hresult, hjsonl, hcount, -⟩ :=
    scanJsonl_selected (toOption_eq_some.1 hfull)
      (show Predicate.On (.u64 "id" (.gt 1)) (Reference.idSchema .auto).columns from
        ⟨_, List.mem_singleton_self _, rfl, rfl⟩) List.nodup_nil (by simp)
  exact ⟨file, footer, groups, result, hencode, hfooter, hgroups, hresult, hjsonl, hcount⟩

end CompactCore.Io.V4
