/-
**Schema evolution.**

A file names its columns, and a later reader may name them otherwise.  Schema revisions give every
column an identity that its name does not touch: the columns of a writer and of a reader are matched
by identity, and the plan that comes out of the comparison reads, fills and drops them under their
names.

Main definitions:

* `CompactCore.Evolution.SchemaRevision`, `CompactCore.Evolution.SchemaRevision.validate` —
  revisions;
* `CompactCore.Evolution.assess`, `CompactCore.Evolution.applyActions` — the plan, and its use;
* `CompactCore.Evolution.decodePhysical`, `CompactCore.Evolution.decodeJsonl` — decoding a file of
  any of the columnar formats, and reading it under another revision;
* `CompactCore.Evolution.delivered` — what a reader column is to hold for a row of the writer.

Main results:

* `CompactCore.Evolution.evolveRow_assess` — **one row is delivered under the reader's names**;
* `CompactCore.Evolution.assess_issues` — there are no issues precisely when every conforming row is
  delivered well-typed, to a reader that is not older;
* `CompactCore.Evolution.applyActions_assess` — the two for whole texts.
-/

import CompactCore.Io.RoundTrip
import CompactCore.Io.V3.RoundTrip
import CompactCore.Io.V4.Scan
import CompactCore.Storage
import CompactCore.Streaming.Reader

set_option relaxedAutoImplicit false
set_option autoImplicit false

namespace CompactCore

open Wire CompactError

/-! ### JSON values -/

/-- `Value::is_boolean`. -/
def Value.isBoolean : Value → Bool
  | .bool _ => true
  | _ => false

/-- `Value::is_string`. -/
def Value.isString : Value → Bool
  | .string _ => true
  | _ => false

/-- `Map::insert`: the keys of a map are in order, and a key that is there gets a new value. -/
def Map.insert (key : String) (value : Value) : Map → Map
  | [] => [(key, value)]
  | (k, v) :: rest =>
      if key < k then (key, value) :: (k, v) :: rest
      else if key = k then (k, value) :: rest
      else (k, v) :: Map.insert key value rest

theorem Map.get_cons (key : String) (value : Value) (row : Map) (k : String) :
    Map.get ((key, value) :: row) k = if k = key then some value else row.get k := by
  rw [get, List.lookup_cons]
  split_ifs with heq
  · rw [heq, beq_self_eq_true]
  · rw [beq_false_of_ne heq]
    rfl

theorem Map.get_insert (key : String) (value : Value) (row : Map) (k : String) :
    (Map.insert key value row).get k = if k = key then some value else row.get k := by
  induction row with
  | nil => exact get_cons key value [] k
  | cons member rest ih =>
      obtain ⟨k', v⟩ := member
      rw [insert]
      by_cases hlt : key < k'
      · rw [if_pos hlt, get_cons]
      by_cases heq : key = k'
      · subst heq
        rw [if_neg hlt, if_pos rfl, get_cons, get_cons]
        split <;> rfl
      · rw [if_neg hlt, if_neg heq, get_cons, ih, get_cons]
        -- the two keys differ, so at most one of the tests holds
        by_cases hk : k = k'
        · rw [if_pos hk, if_neg fun h => heq (h.symm.trans hk), if_pos hk]
        · rw [if_neg hk, if_neg hk]

/-- A key that is not there yet is added. -/
theorem Map.keys_insert {key : String} {row : Map} (value : Value)
    (h : key ∉ row.map Prod.fst) :
    ((Map.insert key value row).map Prod.fst).Perm (key :: row.map Prod.fst) := by
  induction row with
  | nil => exact .refl _
  | cons member rest ih =>
      obtain ⟨k', v⟩ := member
      rw [List.map_cons, List.mem_cons, not_or] at h
      rw [insert]
      by_cases hlt : key < k'
      · rw [if_pos hlt]
        exact .refl _
      · rw [if_neg hlt, if_neg h.1, List.map_cons]
        exact ((ih h.2).cons k').trans (.swap _ _ _)

namespace Evolution

/-! ### Revisions -/

/-- Logical column metadata used to match columns across schema revisions. -/
structure EvolvedColumn where
  stableId : UInt32
  name : String
  valueType : SchemaValueType
  codec : SchemaCodec
  nullable : Bool
  aliases : List String
  default : Option Value

/-- The name of a column, and the names it had. -/
def EvolvedColumn.names (column : EvolvedColumn) : List String := column.name :: column.aliases

/-- One externally managed schema revision. -/
structure SchemaRevision where
  revision : UInt64
  columns : List EvolvedColumn

/-- A concrete operation required to present writer rows as reader rows. -/
inductive EvolutionAction
  | read (stableId : UInt32) (sourceName targetName : String)
  | fillDefault (stableId : UInt32) (targetName : String) (value : Value)
  | fillNull (stableId : UInt32) (targetName : String)
  | drop (stableId : UInt32) (sourceName : String)

/-- A precise reason that a writer revision cannot be read as a reader revision. -/
inductive EvolutionIssue
  | readerRevisionIsOlder (writerRevision readerRevision : UInt64)
  | valueTypeChanged (stableId : UInt32) (writerType readerType : SchemaValueType)
  | nullabilityTightened (stableId : UInt32) (column : String)
  | requiredColumnAddedWithoutDefault (stableId : UInt32) (column : String)
  deriving DecidableEq, Repr

/-- Compatibility decision plus the exact operations needed for conversion. -/
structure EvolutionAssessment where
  writerRevision : UInt64
  readerRevision : UInt64
  actions : List EvolutionAction
  issues : List EvolutionIssue

def EvolutionAssessment.isCompatible (assessment : EvolutionAssessment) : Bool :=
  assessment.issues.isEmpty

/-! ### Validation -/

def validateName (name : String) : Result Unit :=
  failIf (name = "") (invalidInput "schema revision name must not be empty")

def validateDefault (column : EvolvedColumn) : Result Unit :=
  match column.default with
  | none => .ok ()
  | some value =>
      if value.isNull then
        failIf (column.nullable = false) (invalidInput "required column default must not be null")
      else
        let valid := match column.valueType with
          | .bool => value.isBoolean
          | .string => value.isString
          | .u64 => value.asU64.isSome
        failIf (valid = false) (invalidInput "column default does not match value type")

/-- Add names to a set of names.  A column's name and its aliases go through the same checks. -/
def insertNames (names : List String) : List String → Result (List String)
  | [] => .ok names
  | name :: rest => do
      validateName name
      failIf (name ∈ names) (invalidInput "schema revision names and aliases must be unique")
      insertNames (names ++ [name]) rest

/-- The loop over the columns, with the identities and the names before the current one. -/
def validateColumns (stableIds : List UInt32) (names : List String) :
    List EvolvedColumn → Result Unit
  | [] => .ok ()
  | column :: columns => do
      failIf (column.stableId = 0) (invalidInput "stable column id must be positive")
      failIf (column.stableId ∈ stableIds) (invalidInput "stable column ids must be unique")
      let names ← insertNames names column.names
      validateDefault column
      validateColumns (stableIds ++ [column.stableId]) names columns

namespace SchemaRevision

/-- Build the physical schema required by the version-specific decoder. -/
def physicalSchema (self : SchemaRevision) : Schema :=
  ⟨self.columns.map fun column => ⟨column.name, column.valueType, column.codec, column.nullable⟩⟩

/-- Validate stable identities, names, defaults, and physical codecs. -/
def validate (self : SchemaRevision) : Result Unit := do
  failIf (self.revision = 0) (invalidInput "schema revision must be positive")
  failIf (self.columns.isEmpty = true) (invalidInput "schema revision must contain columns")
  validateColumns [] [] self.columns
  let _ ← self.physicalSchema.supportedColumnsV3
  return ()

/-- The writer column with an identity.  Identities are unique in a valid revision. -/
def column? (self : SchemaRevision) (stableId : UInt32) : Option EvolvedColumn :=
  self.columns.find? (·.stableId == stableId)

end SchemaRevision

/-! ### Comparing revisions -/

/-- The issue with a reader column, or the action that gives it its values. -/
def assessColumn (writer : SchemaRevision) (readerColumn : EvolvedColumn) :
    EvolutionIssue ⊕ EvolutionAction :=
  match writer.column? readerColumn.stableId with
  | some writerColumn =>
      if writerColumn.valueType ≠ readerColumn.valueType then
        .inl (.valueTypeChanged readerColumn.stableId writerColumn.valueType readerColumn.valueType)
      else if writerColumn.nullable && !readerColumn.nullable then
        .inl (.nullabilityTightened readerColumn.stableId readerColumn.name)
      else .inr (.read readerColumn.stableId writerColumn.name readerColumn.name)
  | none =>
      match readerColumn.default with
      | some value => .inr (.fillDefault readerColumn.stableId readerColumn.name value)
      | none =>
          if readerColumn.nullable then .inr (.fillNull readerColumn.stableId readerColumn.name)
          else .inl (.requiredColumnAddedWithoutDefault readerColumn.stableId readerColumn.name)

/-- Compare the schema that wrote a file with the schema requested by a reader. -/
def assess (writer reader : SchemaRevision) : Result EvolutionAssessment := do
  writer.validate
  reader.validate
  let older := if reader.revision < writer.revision then
    [.readerRevisionIsOlder writer.revision reader.revision] else []
  let found := reader.columns.map (assessColumn writer)
  let dropped := writer.columns.filter fun column => (reader.column? column.stableId).isNone
  return ⟨writer.revision, reader.revision,
    found.filterMap Sum.getRight? ++ dropped.map fun column => .drop column.stableId column.name,
    older ++ found.filterMap Sum.getLeft?⟩

/-! ### Applying a plan -/

/-- One action on the row that is put together. -/
def applyAction (source target : Map) : EvolutionAction → Result Map
  | .read _ sourceName targetName => do
      let value ← okOr (invalidInput "writer schema column is missing from decoded row")
        (source.get sourceName)
      return target.insert targetName value
  | .fillDefault _ targetName value => .ok (target.insert targetName value)
  | .fillNull _ targetName => .ok (target.insert targetName .null)
  | .drop _ _ => .ok target

/-- The body of the loop over the rows, without the parsing and the rendering. -/
def evolveRow (actions : List EvolutionAction) (source : Map) : Result Map :=
  actions.foldlM (applyAction source) []

section

variable [SerdeJson]

/-- `serde_json::to_string` of a map. -/
def renderMap (row : Map) : String := SerdeJson.display (.object row)

def applyActions (input : String) (actions : List EvolutionAction) : Result String :=
  ((lines input).filter fun line => !isBlank line).foldlM
    (fun output line => do
      let value ← okOr (invalidInput "decoded jsonl row is invalid") (SerdeJson.fromStr line)
      let source ← okOr (invalidInput "decoded jsonl row must be an object") value.asObject
      let target ← evolveRow actions source
      return output ++ renderMap target ++ "\n") ""

/-- The decoder of `decode_jsonl` for the physical writer schema: a file of a columnar format,
whichever it is. -/
def decodePhysical [Crc32Fast] (data : List UInt8) (schema : Schema) : Result String := do
  match ← Storage.detect data with
  | .v1 => .error (unsupported "schema evolution requires a columnar format")
  | .v2 => do
      let bytes ← Streaming.decodeJsonlStream data schema
      okOr (invalidInput "decoded jsonl must be utf-8") (fromUtf8 bytes)
  | .v3 => Io.V3.decodeJsonl data schema
  | .v4 => Io.V4.decodeJsonl data schema

/-- Decode CMP2-CMP4 using the physical writer schema, then project each row through the checked
reader evolution plan. -/
def decodeJsonl [Crc32Fast] [Blake3] (data : List UInt8) (writer reader : SchemaRevision) :
    Result String := do
  let assessment ← assess writer reader
  failIf (assessment.isCompatible = false) (invalidInput "schema revisions are incompatible")
  let physicalJsonl ← decodePhysical data writer.physicalSchema
  applyActions physicalJsonl assessment.actions

end

/-! ### What a valid revision is -/

/-- A column takes the values of its type, and null if it is nullable. -/
def EvolvedColumn.Takes (column : EvolvedColumn) (value : Value) : Prop :=
  value = .null ∧ column.nullable = true ∨ Io.HasType column.valueType value

theorem insertNames_ok {names new names' : List String} :
    insertNames names new = .ok names' ↔
      names' = names ++ new ∧ (∀ name ∈ new, name ≠ "") ∧ new.Nodup ∧ ∀ name ∈ new,
        name ∉ names := by
  induction new generalizing names with
  | nil => simp [insertNames, eq_comm]
  | cons name new ih =>
      simp only [insertNames, validateName, bind_ok, failIf_ok, exists_const, ih,
        List.forall_mem_cons, List.nodup_cons, List.mem_append, List.mem_singleton, not_or,
        List.append_assoc, List.singleton_append]
      constructor
      · rintro ⟨hne, hnew, rfl, hnames, hnodup, hdisjoint⟩
        exact ⟨rfl, ⟨hne, hnames⟩, ⟨fun hmem => (hdisjoint name hmem).2 rfl, hnodup⟩, hnew,
          fun n hn => (hdisjoint n hn).1⟩
      · rintro ⟨rfl, ⟨hne, hnames⟩, ⟨hnot, hnodup⟩, hnew, hdisjoint⟩
        refine ⟨hne, hnew, rfl, hnames, hnodup, fun n hn => ⟨hdisjoint n hn, ?_⟩⟩
        rintro rfl
        exact hnot hn

/-- **The check of a default** accepts the values that the column takes. -/
theorem validateDefault_ok {column : EvolvedColumn} {u : Unit} :
    validateDefault column = .ok u ↔ ∀ value ∈ column.default, column.Takes value := by
  rw [validateDefault]
  cases hdefault : column.default with
  | none => simp
  | some value =>
      simp only [Option.mem_some_iff, forall_eq', EvolvedColumn.Takes]
      cases value with
      | null =>
          have hnot : ¬Io.HasType column.valueType .null := by
            cases column.valueType <;> simp [Io.HasType]
          simp [Value.isNull, hnot]
      | bool b => cases column.valueType <;> simp [Value.isNull, Io.HasType, Value.isBoolean,
          Value.isString, Value.asU64]
      | number n =>
          cases column.valueType <;> cases n <;>
            simp [Value.isNull, Io.HasType, Value.isBoolean, Value.isString, Value.asU64]
      | string t => cases column.valueType <;> simp [Value.isNull, Io.HasType, Value.isBoolean,
          Value.isString, Value.asU64]
      | array items => cases column.valueType <;> simp [Value.isNull, Io.HasType, Value.isBoolean,
          Value.isString, Value.asU64]
      | object members => cases column.valueType <;> simp [Value.isNull, Io.HasType,
          Value.isBoolean, Value.isString, Value.asU64]

theorem validateColumns_ok {stableIds : List UInt32} {names : List String}
    {columns : List EvolvedColumn} {u : Unit} :
    validateColumns stableIds names columns = .ok u ↔
      (∀ column ∈ columns, column.stableId ≠ 0 ∧ column.stableId ∉ stableIds) ∧
        (columns.map (·.stableId)).Nodup ∧
        (∀ name ∈ columns.flatMap EvolvedColumn.names, name ≠ "" ∧ name ∉ names) ∧
        (columns.flatMap EvolvedColumn.names).Nodup ∧
        ∀ column ∈ columns, ∀ value ∈ column.default, column.Takes value := by
  induction columns generalizing stableIds names with
  | nil => simp [validateColumns]
  | cons column columns ih =>
      simp only [validateColumns, bind_ok, failIf_ok, exists_const, insertNames_ok,
        validateDefault_ok, ih, List.mem_append, List.mem_singleton, not_or, List.forall_mem_cons,
        List.map_cons, List.nodup_cons, List.mem_map, List.flatMap_cons, List.nodup_append]
      constructor
      · rintro ⟨hzero, hnew, _, ⟨rfl, hne, hnodup, hnames⟩, hdefault, hids, hidsNodup, hrest,
          hrestNodup, hdefaults⟩
        refine ⟨⟨⟨hzero, hnew⟩, fun c hc => ⟨(hids c hc).1, (hids c hc).2.1⟩⟩, ⟨?_, hidsNodup⟩, ?_,
          ⟨hnodup, hrestNodup, ?_⟩, hdefault, hdefaults⟩
        · rintro ⟨c, hc, heq⟩
          exact (hids c hc).2.2 heq
        · rintro name (hname | hname)
          · exact ⟨hne name hname, hnames name hname⟩
          · exact ⟨(hrest name hname).1, fun h => (hrest name hname).2 (List.mem_append_left _ h)⟩
        · rintro name hname other hother rfl
          exact (hrest name hother).2 (List.mem_append_right _ hname)
      · rintro ⟨⟨⟨hzero, hnew⟩, hids⟩, ⟨hid, hidsNodup⟩, hall, ⟨hnodup, hrestNodup, hdisjoint⟩,
          hdefault, hdefaults⟩
        refine ⟨hzero, hnew, _, ⟨rfl, fun n hn => (hall n (Or.inl hn)).1, hnodup,
          fun n hn => (hall n (Or.inl hn)).2⟩, hdefault, fun c hc => ⟨(hids c hc).1,
          (hids c hc).2, ?_⟩, hidsNodup, fun n hn => ⟨(hall n (Or.inr hn)).1, fun hmem => ?_⟩,
            hrestNodup, hdefaults⟩
        · intro heq
          exact hid ⟨c, hc, heq⟩
        · rcases List.mem_append.1 hmem with hmem | hmem
          · exact (hall n (Or.inr hn)).2 hmem
          · exact hdisjoint n hmem n hn rfl

/-- What validation establishes, as far as plans need it. -/
structure SchemaRevision.Valid (r : SchemaRevision) : Prop where
  stableIds : (r.columns.map (·.stableId)).Nodup
  names : (r.columns.map (·.name)).Nodup
  defaults : ∀ column ∈ r.columns, ∀ value ∈ column.default, column.Takes value

theorem SchemaRevision.validate_ok {self : SchemaRevision} {u : Unit} :
    self.validate = .ok u ↔ self.revision ≠ 0 ∧ self.columns ≠ [] ∧
      (∀ column ∈ self.columns, column.stableId ≠ 0) ∧
      (∀ name ∈ self.columns.flatMap EvolvedColumn.names, name ≠ "") ∧
      (self.columns.flatMap EvolvedColumn.names).Nodup ∧ self.Valid ∧
      ∀ column ∈ self.physicalSchema.columns, column.supportedV3 = true := by
  have hnames : self.physicalSchema.columns.map (·.name) = self.columns.map (·.name) := by
    simp [physicalSchema, List.map_map]
  simp only [validate, bind_ok, failIf_ok, exists_const, validateColumns_ok,
    Schema.supportedColumnsV3_ok, hnames, List.isEmpty_iff, List.not_mem_nil, not_false_eq_true,
    and_true, exists_eq_left, pure_ok]
  constructor
  · rintro ⟨hrevision, hne, ⟨hpos, hids, hall, hnodup, hdefaults⟩, -, -, hcolumns, hsup⟩
    exact ⟨hrevision, hne, hpos, hall, hnodup, ⟨hids, hcolumns, hdefaults⟩, hsup⟩
  · rintro ⟨hrevision, hne, hpos, hall, hnodup, ⟨hids, hcolumns, hdefaults⟩, hsup⟩
    refine ⟨hrevision, hne, ⟨hpos, hids, hall, hnodup, hdefaults⟩, ?_, ?_, hcolumns, hsup⟩
    · simpa [physicalSchema] using hne
    · intro column hmem
      obtain ⟨evolved, hevolved, rfl⟩ := List.mem_map.1 hmem
      exact hall _ (List.mem_flatMap.2 ⟨evolved, hevolved, List.mem_cons_self⟩)

/-- A column is found under its identity. -/
theorem SchemaRevision.Valid.column? {self : SchemaRevision} (h : self.Valid) {id : UInt32}
    {column : EvolvedColumn} :
    self.column? id = some column ↔ column ∈ self.columns ∧ column.stableId = id := by
  constructor
  · intro hfind
    exact ⟨List.mem_of_find?_eq_some hfind, by simpa using List.find?_some hfind⟩
  · rintro ⟨hmem, rfl⟩
    obtain ⟨found, hfound⟩ : ∃ found, self.column? column.stableId = some found := by
      rw [SchemaRevision.column?, ← Option.isSome_iff_exists, List.find?_isSome]
      exact ⟨column, hmem, beq_self_eq_true _⟩
    have hid : found.stableId = column.stableId := by simpa using List.find?_some hfound
    rw [hfound, List.inj_on_of_nodup_map h.stableIds
      (List.mem_of_find?_eq_some hfound) hmem hid]

/-! ### What is delivered -/

/-- A row gives every column a value that the column takes. -/
def Conforms (columns : List EvolvedColumn) (row : Map) : Prop :=
  ∀ column ∈ columns, ∃ value, row.get column.name = some value ∧ column.Takes value

/-- What a reader column is to hold for a row of the writer: the value of the column with the same
identity, or else the default, or else null. -/
def delivered (writer : SchemaRevision) (row : Map) (column : EvolvedColumn) : Value :=
  match writer.column? column.stableId with
  | some writerColumn => (row.get writerColumn.name).getD .null
  | none => column.default.getD .null

section

variable {writer reader : SchemaRevision} {column : EvolvedColumn} {row : Map}

/-- **A column without an issue**: its action puts in what the column is to hold, and the column
takes it. -/
theorem applyAction_assessColumn (hwriter : writer.Valid) (hrow : Conforms writer.columns row)
    (hdefault : ∀ value ∈ column.default, column.Takes value) {action : EvolutionAction}
    (h : assessColumn writer column = .inr action) (target : Map) :
    applyAction row target action = .ok (target.insert column.name (delivered writer row column)) ∧
      column.Takes (delivered writer row column) := by
  rw [assessColumn] at h
  cases hfind : writer.column? column.stableId with
  | some writerColumn =>
      obtain ⟨value, hvalue, htakes⟩ := hrow writerColumn (hwriter.column?.1 hfind).1
      have hdelivered : delivered writer row column = value := by
        simp only [delivered, hfind, hvalue, Option.getD_some]
      simp only [hfind] at h
      split_ifs at h with htype hnull
      cases h
      refine ⟨by simp [applyAction, hvalue, okOr, hdelivered], ?_⟩
      rw [hdelivered]
      -- the types agree, and where the writer column is nullable, so is the reader column
      rw [ne_eq, not_not] at htype
      rcases htakes with ⟨rfl, hnullable⟩ | htyped
      · refine Or.inl ⟨rfl, ?_⟩
        rwa [hnullable, Bool.true_and, Bool.not_eq_true', Bool.not_eq_false] at hnull
      · exact Or.inr (htype ▸ htyped)
  | none =>
      simp only [hfind] at h
      cases hvalue : column.default with
      | some value =>
          have hdelivered : delivered writer row column = value := by
            simp only [delivered, hfind, hvalue, Option.getD_some]
          simp only [hvalue] at h
          cases h
          rw [hdelivered]
          exact ⟨rfl, hdefault value hvalue⟩
      | none =>
          have hdelivered : delivered writer row column = .null := by
            simp only [delivered, hfind, hvalue, Option.getD_none]
          simp only [hvalue] at h
          split_ifs at h with hnullable
          cases h
          rw [hdelivered]
          exact ⟨rfl, Or.inl ⟨rfl, hnullable⟩⟩

/-- The columns of the reader, one action after the other. -/
theorem foldlM_assessColumn (hwriter : writer.Valid) (hrow : Conforms writer.columns row)
    {columns : List EvolvedColumn}
    (hdefaults : ∀ column ∈ columns, ∀ value ∈ column.default, column.Takes value)
    (hnames : (columns.map (·.name)).Nodup)
    (hissues : (columns.map (assessColumn writer)).filterMap Sum.getLeft? = []) {t : Map}
    (hnew : ∀ column ∈ columns, column.name ∉ t.map Prod.fst) :
    ∃ target', ((columns.map (assessColumn writer)).filterMap Sum.getRight?).foldlM
        (applyAction row) t = .ok target' ∧
      (target'.map Prod.fst).Perm (columns.map (·.name) ++ t.map Prod.fst) ∧
      (∀ column ∈ columns, target'.get column.name = some (delivered writer row column) ∧
        column.Takes (delivered writer row column)) ∧
      ∀ name ∉ columns.map (·.name), target'.get name = t.get name := by
  induction columns generalizing t with
  | nil => exact ⟨t, rfl, .refl _, List.forall_mem_nil _, fun _ _ => rfl⟩
  | cons column columns ih =>
      obtain ⟨action, haction⟩ : ∃ action, assessColumn writer column = .inr action := by
        cases hcase : assessColumn writer column with
        | inl issue => simp [hcase] at hissues
        | inr action => exact ⟨action, rfl⟩
      rw [List.map_cons, List.nodup_cons] at hnames
      rw [List.map_cons, haction, List.filterMap_cons_none rfl] at hissues
      obtain ⟨happly, htakes⟩ := applyAction_assessColumn hwriter hrow
        (hdefaults column List.mem_cons_self) haction t
      have hperm := Map.keys_insert (delivered writer row column) (hnew column List.mem_cons_self)
      obtain ⟨target', hrun, hkeys, hvalues, hothers⟩ := ih
        (fun c hc => hdefaults c (List.mem_cons_of_mem _ hc)) hnames.2 hissues
        (t := t.insert column.name (delivered writer row column)) (by
          intro c hc hmem
          rcases List.mem_cons.1 (hperm.subset hmem) with heq | hmem
          · exact hnames.1 (heq ▸ List.mem_map_of_mem hc)
          · exact hnew c (List.mem_cons_of_mem _ hc) hmem)
      refine ⟨target', ?_, ?_, List.forall_mem_cons.2 ⟨⟨?_, htakes⟩, hvalues⟩, fun name hname => ?_⟩
      · have hfirst : ((.inr action :: columns.map (assessColumn writer)).filterMap Sum.getRight?) =
            action :: (columns.map (assessColumn writer)).filterMap Sum.getRight? := rfl
        rw [List.map_cons, haction, hfirst, List.foldlM_cons, happly]
        exact hrun
      · refine hkeys.trans ((hperm.append_left _).trans ?_)
        exact List.perm_middle
      · rw [hothers column.name hnames.1, Map.get_insert, if_pos rfl]
      · rw [List.map_cons, List.mem_cons, not_or] at hname
        rw [hothers name hname.2, Map.get_insert, if_neg hname.1]

theorem foldlM_drop (row target : Map) (columns : List EvolvedColumn) :
    (columns.map fun column => EvolutionAction.drop column.stableId column.name).foldlM
      (applyAction row) target = .ok target := by
  induction columns generalizing target with
  | nil => rfl
  | cons column columns ih => exact ih target

/-- **One row is delivered under the reader's names**: its keys are these names, and every column
holds what it is to hold. -/
theorem evolveRow_assess (hwriter : writer.Valid) (hreader : reader.Valid)
    {assessment : EvolutionAssessment} (h : assess writer reader = .ok assessment)
    (hissues : assessment.issues = []) (hrow : Conforms writer.columns row) :
    ∃ target, evolveRow assessment.actions row = .ok target ∧
      (target.map Prod.fst).Perm (reader.columns.map (·.name)) ∧
      ∀ column ∈ reader.columns, target.get column.name = some (delivered writer row column) ∧
        column.Takes (delivered writer row column) := by
  simp only [assess, bind_ok, pure_ok] at h
  obtain ⟨_, -, _, -, rfl⟩ := h
  obtain ⟨target, hrun, hkeys, hvalues, -⟩ := foldlM_assessColumn hwriter hrow hreader.defaults
    hreader.names (List.append_eq_nil_iff.1 hissues).2 (t := []) (by simp)
  refine ⟨target, ?_, by simpa using hkeys, hvalues⟩
  rw [evolveRow, List.foldlM_append, hrun]
  exact foldlM_drop row target _

end

/-! ### When there are no issues -/

section

variable {writer reader : SchemaRevision}

/-- A value of each type. -/
def sampleValue : SchemaValueType → Value
  | .bool => .bool false
  | .string => .string ""
  | .u64 => .number (.posInt 0)

theorem hasType_sampleValue {a b : SchemaValueType} : Io.HasType a (sampleValue b) ↔ a = b := by
  cases a <;> cases b <;> simp [Io.HasType, sampleValue]

/-- A row with one value for every column. -/
def rowOf (f : EvolvedColumn → Value) (columns : List EvolvedColumn) : Map :=
  columns.map fun column => (column.name, f column)

theorem get_rowOf {f : EvolvedColumn → Value} {columns : List EvolvedColumn}
    (hnames : (columns.map (·.name)).Nodup) {column : EvolvedColumn} (hmem : column ∈ columns) :
    (rowOf f columns).get column.name = some (f column) := by
  induction columns with
  | nil => cases hmem
  | cons first columns ih =>
      rw [List.map_cons, List.nodup_cons] at hnames
      rw [rowOf, List.map_cons, Map.get_cons]
      rcases List.mem_cons.1 hmem with rfl | hmem
      · rw [if_pos rfl]
      · have hne : column.name ≠ first.name := by
          intro heq
          exact hnames.1 (heq ▸ List.mem_map_of_mem hmem)
        rw [if_neg hne]
        exact ih hnames.2 hmem

theorem conforms_rowOf {f : EvolvedColumn → Value} {columns : List EvolvedColumn}
    (hnames : (columns.map (·.name)).Nodup) (hf : ∀ column ∈ columns, column.Takes (f column)) :
    Conforms columns (rowOf f columns) :=
  fun column hmem => ⟨f column, get_rowOf hnames hmem, hf column hmem⟩

/-- **A column with an issue** is delivered a value that it does not take, for some row. -/
theorem exists_not_takes (hwriter : writer.Valid) {column : EvolvedColumn} {issue : EvolutionIssue}
    (h : assessColumn writer column = .inl issue) :
    ∃ row, Conforms writer.columns row ∧ ¬column.Takes (delivered writer row column) := by
  have hsample : ∀ c ∈ writer.columns, c.Takes (sampleValue c.valueType) :=
    fun c _ => Or.inr (hasType_sampleValue.2 rfl)
  have hnull : ¬Io.HasType column.valueType .null := by
    cases column.valueType <;> simp [Io.HasType]
  rw [assessColumn] at h
  cases hfind : writer.column? column.stableId with
  | some writerColumn =>
      obtain ⟨hmem, -⟩ := hwriter.column?.1 hfind
      have hdelivered (f : EvolvedColumn → Value) :
          delivered writer (rowOf f writer.columns) column = f writerColumn := by
        simp only [delivered, hfind, get_rowOf hwriter.names hmem, Option.getD_some]
      simp only [hfind] at h
      split_ifs at h with htype hnullable
      · -- the types differ, so a value of the writer's type is not of the reader's
        refine ⟨_, conforms_rowOf hwriter.names hsample, ?_⟩
        rw [hdelivered]
        rintro (⟨hvalue, -⟩ | htyped)
        · cases hcase : writerColumn.valueType <;> simp [hcase, sampleValue] at hvalue
        · exact htype (hasType_sampleValue.1 htyped).symm
      · -- the writer column may be null, the reader column may not
        rw [Bool.and_eq_true, Bool.not_eq_true'] at hnullable
        refine ⟨_, conforms_rowOf hwriter.names (f := fun c =>
          if c.nullable then .null else sampleValue c.valueType) ?_, ?_⟩
        · intro c hc
          cases hcase : c.nullable with
          | true => exact Or.inl ⟨by simp, hcase⟩
          | false => exact (hsample c hc).imp_left (by simp [hcase])
        · rw [hdelivered]
          simp only [hnullable.1, if_true]
          rintro (⟨-, hyes⟩ | htyped)
          · rw [hnullable.2] at hyes
            cases hyes
          · exact hnull htyped
  | none =>
      simp only [hfind] at h
      cases hvalue : column.default with
      | some value => simp [hvalue] at h
      | none =>
          simp only [hvalue] at h
          split_ifs at h with hnullable
          refine ⟨_, conforms_rowOf hwriter.names hsample, ?_⟩
          simp only [delivered, hfind, hvalue, Option.getD_none]
          rintro (⟨-, hyes⟩ | htyped)
          · exact hnullable hyes
          · exact hnull htyped

/-- **There are no issues** precisely when the reader is not older, and every row that conforms to
the writer is delivered to every reader column as the column takes it. -/
theorem assess_issues (hwriter : writer.Valid) (hreader : reader.Valid)
    {assessment : EvolutionAssessment} (h : assess writer reader = .ok assessment) :
    assessment.issues = [] ↔ writer.revision ≤ reader.revision ∧
      ∀ column ∈ reader.columns, ∀ row, Conforms writer.columns row →
        column.Takes (delivered writer row column) := by
  have hassess := h
  simp only [assess, bind_ok, pure_ok] at hassess
  obtain ⟨_, -, _, -, hassessment⟩ := hassess
  have hissues : assessment.issues = [] ↔ ¬reader.revision < writer.revision ∧
      ∀ column ∈ reader.columns, ∀ issue, assessColumn writer column ≠ .inl issue := by
    rw [← hassessment]
    simp only [List.append_eq_nil_iff, ite_eq_right_iff, List.filterMap_eq_nil_iff, List.mem_map,
      forall_exists_index, and_imp, forall_apply_eq_imp_iff₂, reduceCtorEq, imp_false]
    refine and_congr_right fun _ => forall₂_congr fun column _ => ?_
    cases assessColumn writer column <;> simp
  rw [hissues, UInt64.not_lt]
  refine and_congr_right fun hrevision => ⟨fun hnone column hmem row hrow => ?_,
    fun htakes column hmem issue hissue => ?_⟩
  · obtain ⟨_, -, -, hvalues⟩ := evolveRow_assess hwriter hreader h
      (hissues.2 ⟨UInt64.not_lt.2 hrevision, hnone⟩) hrow
    exact (hvalues column hmem).2
  · obtain ⟨row, hrow, hnot⟩ := exists_not_takes hwriter hissue
    exact hnot (htakes column hmem row hrow)

/-! ### Whole texts -/

/-- A row of the reader holds what its columns are to hold, each value as its column takes it, under
the names of the reader and no others. -/
structure Delivers (writer reader : SchemaRevision) (row target : Map) : Prop where
  keys : (target.map Prod.fst).Perm (reader.columns.map (·.name))
  values : ∀ column ∈ reader.columns, target.get column.name = some (delivered writer row column) ∧
    column.Takes (delivered writer row column)

/-- The rows of a text go through a plan one by one. -/
theorem applyActions_eq [SerdeJson] {input : String} {actions : List EvolutionAction}
    {rows targets : List Map} (hrows : Io.parseRows input = .ok rows)
    (htargets : rows.mapM (evolveRow actions) = .ok targets) :
    applyActions input actions =
      .ok (String.join (targets.map fun row => renderMap row ++ "\n")) := by
  have hloop : ∀ (texts : List String) (rows targets : List Map) (out : String),
      texts.mapM Io.parseJsonlObject = .ok rows → rows.mapM (evolveRow actions) = .ok targets →
      texts.foldlM (fun output line => do
        let value ← okOr (invalidInput "decoded jsonl row is invalid") (SerdeJson.fromStr line)
        let source ← okOr (invalidInput "decoded jsonl row must be an object") value.asObject
        let target ← evolveRow actions source
        return output ++ renderMap target ++ "\n") out =
          .ok (out ++ String.join (targets.map fun row => renderMap row ++ "\n")) := by
    intro texts
    induction texts with
    | nil =>
        rintro rows targets out hrows htargets
        cases hrows
        cases htargets
        exact congrArg Except.ok String.append_empty.symm
    | cons text texts ih =>
        rintro rows targets out hrows htargets
        simp only [List.mapM_cons, bind_ok, pure_ok] at hrows
        obtain ⟨row, hrow, rest, hrest, rfl⟩ := hrows
        simp only [List.mapM_cons, bind_ok, pure_ok] at htargets
        obtain ⟨target, htarget, targets', htargets', rfl⟩ := htargets
        simp only [Io.parseJsonlObject, bind_ok, okOr_ok] at hrow
        obtain ⟨value, hvalue, hobject⟩ := hrow
        simp only [List.foldlM_cons, bind_ok, okOr_ok, pure_ok]
        refine ⟨_, ⟨value, hvalue, row, hobject, target, htarget, rfl⟩, ?_⟩
        rw [ih rest targets' _ hrest htargets', List.map_cons, String.join_cons]
        simp only [String.append_assoc]
  rw [applyActions, hloop _ rows targets "" hrows htargets, String.empty_append]

/-- **What a plan does**: without issues it delivers every conforming row, and there are issues
where the reader is older or some column is not delivered what it takes. -/
theorem assess_spec [SerdeJson] (hwriter : writer.validate = .ok ())
    (hreader : reader.validate = .ok ()) :
    ∃ assessment, assess writer reader = .ok assessment ∧
      (assessment.issues = [] → ∀ rows : List Map, (∀ row ∈ rows, Conforms writer.columns row) →
        ∃ targets, rows.mapM (evolveRow assessment.actions) = .ok targets ∧
          List.Forall₂ (Delivers writer reader) rows targets ∧
          ∀ input, Io.parseRows input = .ok rows →
            applyActions input assessment.actions =
              .ok (String.join (targets.map fun row => renderMap row ++ "\n"))) ∧
      (assessment.issues = [] ↔ writer.revision ≤ reader.revision ∧
        ∀ column ∈ reader.columns, ∀ row, Conforms writer.columns row →
          column.Takes (delivered writer row column)) := by
  obtain ⟨-, -, -, -, -, hwriter', -⟩ := SchemaRevision.validate_ok.1 hwriter
  obtain ⟨-, -, -, -, -, hreader', -⟩ := SchemaRevision.validate_ok.1 hreader
  obtain ⟨assessment, hassess⟩ : ∃ assessment, assess writer reader = .ok assessment := by
    simp only [assess, bind_ok, pure_ok]
    exact ⟨_, (), hwriter, (), hreader, rfl⟩
  refine ⟨assessment, hassess, fun hissues rows hrows => ?_,
    assess_issues hwriter' hreader' hassess⟩
  obtain ⟨targets, htargets, hdelivers⟩ : ∃ targets,
      rows.mapM (evolveRow assessment.actions) = .ok targets ∧
        List.Forall₂ (Delivers writer reader) rows targets := by
    induction rows with
    | nil => exact ⟨[], rfl, .nil⟩
    | cons row rows ih =>
        obtain ⟨target, htarget, hkeys, hvalues⟩ :=
          evolveRow_assess hwriter' hreader' hassess hissues
          (hrows row List.mem_cons_self)
        obtain ⟨targets, htargets, hdelivers⟩ := ih fun r hr => hrows r (List.mem_cons_of_mem _ hr)
        refine ⟨target :: targets, ?_, .cons ⟨hkeys, hvalues⟩ hdelivers⟩
        rw [List.mapM_cons, htarget, htargets]
        rfl
  exact ⟨targets, htargets, hdelivers, fun input hinput => applyActions_eq hinput htargets⟩

end

open scoped CompactCore.Reference

/-- A revision, and a later one in which two columns have taken each other's names. -/
def swapped : SchemaRevision × SchemaRevision :=
  (⟨1, [⟨1, "a", .u64, .stored, false, [], none⟩, ⟨2, "b", .string, .stored, false, [], none⟩]⟩,
    ⟨2, [⟨1, "b", .u64, .stored, false, [], none⟩, ⟨2, "a", .string, .stored, true, [], none⟩,
      ⟨3, "c", .u64, .stored, false, [], some (.number (.posInt 7))⟩]⟩)

/-- The values follow the identities, not the names. -/
theorem assess_spec_swapped : ∃ assessment target,
    assess swapped.1 swapped.2 = .ok assessment ∧ assessment.issues = [] ∧
      evolveRow assessment.actions [("a", .number (.posInt 5)), ("b", .string "x")] = .ok target ∧
      target.get "b" = some (.number (.posInt 5)) ∧ target.get "a" = some (.string "x") ∧
      target.get "c" = some (.number (.posInt 7)) := by
  obtain ⟨assessment, hassess, hdelivers, -⟩ :=
    @assess_spec swapped.1 swapped.2 _ rfl rfl
  have hissues : assessment.issues = [] := by
    cases hassess
    rfl
  obtain ⟨targets, htargets, hall, -⟩ := hdelivers hissues
    [[("a", .number (.posInt 5)), ("b", .string "x")]] (by
      intro row hrow column hcolumn
      rw [List.mem_singleton.1 hrow]
      rcases List.mem_cons.1 hcolumn with rfl | hcolumn
      · exact ⟨_, rfl, Or.inr ⟨5, rfl⟩⟩
      · rw [List.mem_singleton.1 hcolumn]
        exact ⟨_, rfl, Or.inr ⟨"x", rfl⟩⟩)
  cases hall with
  | @cons row target rows targets hfirst hrest =>
      cases hrest
      simp only [List.mapM_cons, List.mapM_nil, bind_ok, pure_ok, List.cons.injEq] at htargets
      obtain ⟨_, htarget, _, rfl, rfl, -⟩ := htargets
      have hvalues := hfirst.values
      exact ⟨assessment, _, hassess, hissues, htarget, (hvalues _ List.mem_cons_self).1,
        (hvalues _ (List.mem_cons_of_mem _ List.mem_cons_self)).1,
        (hvalues _ (List.mem_cons_of_mem _ (List.mem_cons_of_mem _ List.mem_cons_self))).1⟩

end Evolution

end CompactCore
