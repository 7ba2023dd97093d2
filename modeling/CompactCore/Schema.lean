/-
**Schemas.**

A schema is a list of named columns with a value type, a codec and a nullability.  The two file
formats support different combinations, so each has its own validation; both insist on at least
one column and on distinct, non-empty names.

Main definitions:

* `CompactCore.ColumnSchema`, `CompactCore.Schema` — the declarations;
* `CompactCore.Schema.supportedColumns` — validation for the stable `CMP2` path;
* `CompactCore.Schema.supportedColumnsV3` — validation for the `CMP3` and `CMP4` path.

Main results:

* `CompactCore.validateColumnNames_ok` — the name check is distinctness and non-emptiness;
* `CompactCore.Schema.supportedColumns_ok`, `CompactCore.Schema.supportedColumnsV3_ok` — what a
  validated schema looks like.
-/

import CompactCore.Codecs

set_option relaxedAutoImplicit false
set_option autoImplicit false

namespace CompactCore

open Wire CompactError

inductive SchemaValueType
  | bool
  | string
  | u64
  deriving DecidableEq, Repr

inductive SchemaCodec
  | auto
  | bitmap
  | bitpack
  | deltaBitpack
  | dictionary
  | deltaVarintU64
  | prefixCodec
  | rle
  | stored
  deriving DecidableEq, Repr

structure ColumnSchema where
  name : String
  valueType : SchemaValueType
  codec : SchemaCodec
  nullable : Bool
  deriving DecidableEq, Repr

/-- Declarative schema shared by the stable `CMP2` path and the `CMP3` planner. -/
structure Schema where
  columns : List ColumnSchema
  deriving DecidableEq, Repr

/-! ### Validation -/

/-- The loop of `validate_column_names`, with the columns before the current one. -/
def validateColumnNamesFrom (previous : List ColumnSchema) : List ColumnSchema → Result Unit
  | [] => .ok ()
  | column :: columns => do
      failIf (column.name = "") (invalidInput "schema column name must not be empty")
      failIf (previous.any (·.name == column.name) = true)
        (invalidInput "schema column names must be unique")
      validateColumnNamesFrom (previous ++ [column]) columns

def validateColumnNames (columns : List ColumnSchema) : Result Unit :=
  validateColumnNamesFrom [] columns

/-- The columns the `CMP2` path can serialize. -/
def ColumnSchema.supported (column : ColumnSchema) : Bool :=
  match column.valueType, column.codec, column.nullable with
  | .u64, .deltaVarintU64, false => true
  | .string, .dictionary, false => true
  | .string, .rle, false => true
  | _, _, _ => false

/-- The columns of the v0.3 column format. -/
def ColumnSchema.supportedV3 (column : ColumnSchema) : Bool :=
  match column.valueType with
  | .u64 =>
      match column.codec with
      | .auto | .bitpack | .deltaBitpack | .deltaVarintU64 | .stored => true
      | _ => false
  | .string =>
      match column.codec with
      | .auto | .dictionary | .prefixCodec | .rle | .stored => true
      | _ => false
  | .bool =>
      match column.codec with
      | .auto | .bitmap | .stored => true
      | _ => false

/-- The validation the two formats share: they differ in the columns they support and in the
message about one that they do not. -/
def Schema.supportedBy (supported : ColumnSchema → Bool) (message : String) (schema : Schema) :
    Result (List ColumnSchema) := do
  failIf (schema.columns = []) (unsupported "schema must contain at least one column")
  validateColumnNames schema.columns
  failIf (schema.columns.any (!supported ·) = true) (unsupported message)
  return schema.columns

/-- Validate and return all supported columns in schema order. -/
def Schema.supportedColumns (schema : Schema) : Result (List ColumnSchema) :=
  schema.supportedBy ColumnSchema.supported "schema column codec"

/-- Validate schema combinations supported by the v0.3 column format. -/
def Schema.supportedColumnsV3 (schema : Schema) : Result (List ColumnSchema) :=
  schema.supportedBy ColumnSchema.supportedV3 "v0.3 schema column codec"

def ColumnSchema.encodeConfig (column : ColumnSchema) : EncodeConfig :=
  match column.valueType, column.codec with
  | .u64, .deltaVarintU64 => ⟨.u64, .delta, .deltaVarintU64⟩
  | .string, .rle => ⟨.string, .none, .rle⟩
  | .string, .dictionary => ⟨.string, .none, .columnBlock⟩
  | _, _ => ⟨.rawBytes, .none, .huffman⟩

/-! ### What validation establishes -/

theorem validateColumnNamesFrom_ok {previous columns : List ColumnSchema} :
    validateColumnNamesFrom previous columns = .ok () ↔
      (∀ column ∈ columns, column.name ≠ "") ∧ (columns.map (·.name)).Nodup ∧
        ∀ column ∈ columns, ∀ p ∈ previous, p.name ≠ column.name := by
  induction columns generalizing previous with
  | nil => simp [validateColumnNamesFrom]
  | cons column columns ih =>
      simp only [validateColumnNamesFrom, bind_ok, failIf_ok, List.any_eq_true, beq_iff_eq, ih,
        List.mem_cons, List.map_cons, List.nodup_cons, List.mem_map, List.mem_append,
        List.not_mem_nil, or_false, exists_const, forall_eq_or_imp]
      constructor
      · intro h
        obtain ⟨hname, huniq, hnames, hnodup, hprev⟩ := h
        refine ⟨⟨hname, hnames⟩, ⟨?_, hnodup⟩, ?_, ?_⟩
        · intro hex
          obtain ⟨c, hc, heq⟩ := hex
          exact hprev c hc column (Or.inr rfl) heq.symm
        · intro p hp heq
          exact huniq ⟨p, hp, heq⟩
        · intro c hc p hp
          exact hprev c hc p (Or.inl hp)
      · intro h
        obtain ⟨⟨hname, hnames⟩, ⟨hnot, hnodup⟩, hcol, hprev⟩ := h
        refine ⟨hname, ?_, hnames, hnodup, ?_⟩
        · intro hex
          obtain ⟨p, hp, heq⟩ := hex
          exact hcol p hp heq
        · intro c hc p hp
          rcases hp with hp | rfl
          · exact hprev c hc p hp
          · intro heq
            exact hnot ⟨c, hc, heq.symm⟩

/-- The name check accepts exactly distinct, non-empty names. -/
theorem validateColumnNames_ok {columns : List ColumnSchema} {u : Unit} :
    validateColumnNames columns = .ok u ↔
      (∀ column ∈ columns, column.name ≠ "") ∧ (columns.map (·.name)).Nodup := by
  rw [validateColumnNames, validateColumnNamesFrom_ok]
  simp

theorem Schema.supportedBy_ok {supported : ColumnSchema → Bool} {message : String}
    {schema : Schema} {columns : List ColumnSchema} :
    schema.supportedBy supported message = .ok columns ↔
      columns = schema.columns ∧ columns ≠ [] ∧ (∀ column ∈ columns, column.name ≠ "") ∧
        (columns.map (·.name)).Nodup ∧ ∀ column ∈ columns, supported column = true := by
  simp only [Schema.supportedBy, bind_ok, failIf_ok, validateColumnNames_ok, pure_ok,
    List.any_eq_true, Bool.not_eq_true', not_exists, not_and, Bool.not_eq_false]
  constructor
  · intro h
    obtain ⟨_, hne, _, ⟨hnames, hnodup⟩, _, hsup, rfl⟩ := h
    exact ⟨rfl, hne, hnames, hnodup, hsup⟩
  · intro h
    obtain ⟨rfl, hne, hnames, hnodup, hsup⟩ := h
    exact ⟨(), hne, (), ⟨hnames, hnodup⟩, (), hsup, rfl⟩

/-- A schema the `CMP2` path accepts. -/
theorem Schema.supportedColumns_ok {schema : Schema} {columns : List ColumnSchema} :
    schema.supportedColumns = .ok columns ↔
      columns = schema.columns ∧ columns ≠ [] ∧ (∀ column ∈ columns, column.name ≠ "") ∧
        (columns.map (·.name)).Nodup ∧ ∀ column ∈ columns, column.supported = true :=
  Schema.supportedBy_ok

/-- A schema the v0.3 format accepts. -/
theorem Schema.supportedColumnsV3_ok {schema : Schema} {columns : List ColumnSchema} :
    schema.supportedColumnsV3 = .ok columns ↔
      columns = schema.columns ∧ columns ≠ [] ∧ (∀ column ∈ columns, column.name ≠ "") ∧
        (columns.map (·.name)).Nodup ∧ ∀ column ∈ columns, column.supportedV3 = true :=
  Schema.supportedBy_ok

end CompactCore
