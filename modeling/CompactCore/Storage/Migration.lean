/-
**Migrating schema metadata documents.**

Version 1 of the metadata identifies columns by their names, version 2 by stable identities that the
caller assigns.  A migration edits the tree of the document, and checks what it edits through typed
values that are read off the document before and after.  Documents may hold members that nobody
knows: they go through a migration unchanged.

Main definitions:

* `CompactCore.Storage.Migration.plan`, `CompactCore.Storage.Migration.execute` — the operations;
* `CompactCore.Storage.Migration.Migrated` — a tree, and what a migration should make of it.

Main results:

* `CompactCore.Storage.Migration.physicalSchema_migrated` — the typed views agree on the edit;
* `CompactCore.Storage.Migration.execute_migrated` — **a migration changes what it says, and is
  idempotent**.
-/

import CompactCore.Reference
import CompactCore.Schema.Metadata

set_option relaxedAutoImplicit false
set_option autoImplicit false

namespace CompactCore.Storage.Migration

open Wire CompactError Evolution

def metadataVersionV1 : UInt64 := 1

def metadataVersionV2 : UInt64 := 2

/-! ### Assignments and plans -/

/-- Caller-supplied identities required for a safe name-based v1 migration. -/
structure MigrationAssignments where
  stableIds : List (String × UInt32)
  sorted : (stableIds.map Prod.fst).Pairwise (· < ·)

namespace MigrationAssignments

def empty : MigrationAssignments := ⟨[], List.Pairwise.nil⟩

/-- `BTreeMap::get`. -/
def get (assignments : MigrationAssignments) (name : String) : Option UInt32 :=
  assignments.stableIds.lookup name

/-- The assigned names. -/
def names (assignments : MigrationAssignments) : List String := assignments.stableIds.map Prod.fst

end MigrationAssignments

/-- Whether executing a migration plan changes output bytes. -/
inductive MigrationAction
  | none
  | addStableColumnIds
  deriving DecidableEq, Repr

/-- Source-bound metadata migration decision. -/
structure MigrationPlan where
  sourceVersion : UInt64
  targetVersion : UInt64
  action : MigrationAction
  sourceLen : UInt64
  sourceChecksum : UInt32
  sourceDigest : List UInt8
  columnCount : UInt64
  migrated : List UInt8
  deriving DecidableEq, Repr

section

variable [SerdeYaml]

/-! ### Documents of version 1 -/

structure LegacyColumn where
  name : String
  valueType : SchemaValueType
  codec : SchemaCodec
  nullable : Bool
  deriving DecidableEq, Repr

structure LegacyMetadata where
  metadataVersion : UInt64
  revision : UInt64
  columns : List LegacyColumn
  deriving DecidableEq, Repr

omit [SerdeYaml] in
def LegacyColumn.runtimeSchema (self : LegacyColumn) : ColumnSchema :=
  ⟨self.name, self.valueType, self.codec, self.nullable⟩

/-- A column.  Its other fields are collected in a buffer, which takes no tags. -/
def LegacyColumn.ofYaml (value : Yaml) : Option LegacyColumn := do
  let fields ← readFields value
  let name ← Yaml.required readString "name" fields
  let valueType ← Yaml.required (readVariant SchemaValueType.variant) "type" fields
  let codec ← Yaml.required (readVariant SchemaCodec.variant) "codec" fields
  let nullable ← Yaml.optional Yaml.asBool false "nullable" fields
  let extensions := fields.filter fun field => field.1 ∉ ["name", "type", "codec", "nullable"]
  if extensions.all (·.2.untagged) then some ⟨name, valueType, codec, nullable⟩ else none

def LegacyMetadata.ofYaml (value : Yaml) : Option LegacyMetadata := do
  let fields ← readFields value
  let metadataVersion ← Yaml.required Yaml.asU64 "metadata_version" fields
  let revision ← Yaml.required Yaml.asU64 "revision" fields
  let columns ← Yaml.required (readVec LegacyColumn.ofYaml) "columns" fields
  return ⟨metadataVersion, revision, columns⟩

/-! ### Editing -/

omit [SerdeYaml] in
def metadataVersion (document : Yaml) : Result UInt64 := do
  let root ← okOr (invalidInput "metadata root must be a mapping") document.asMapping
  okOr (invalidInput "metadata_version must be a positive integer")
    ((Yaml.get root "metadata_version").bind Yaml.asU64)

omit [SerdeYaml] in
def setMetadataVersion (document : Yaml) (version : UInt64) : Result Yaml :=
  Yaml.editMapping (invalidInput "metadata root must be a mapping")
    (fun root => .ok (Yaml.insert "metadata_version" (.number (.posInt version)) root)) document

omit [SerdeYaml] in
/-- The loop body of `add_stable_ids`. -/
def addStableId (assignments : MigrationAssignments) (column : Yaml) : Result Yaml :=
  Yaml.editMapping (invalidInput "metadata column must be a mapping")
    (fun mapping => do
      let name ← okOr (invalidInput "metadata column name must be a string")
        ((Yaml.get mapping "name").bind Yaml.asStr)
      let stableId ← okOr (invalidInput "missing stable id assignment for metadata column")
        (assignments.get name)
      return Yaml.insert "stable_id" (.number (.posInt stableId.toUInt64)) mapping) column

omit [SerdeYaml] in
def addStableIds (document : Yaml) (assignments : MigrationAssignments) : Result Yaml :=
  Yaml.editMapping (invalidInput "metadata root must be a mapping")
    (fun root => do
      let columns ← okOr (invalidInput "metadata columns must be a sequence")
        (Yaml.get root "columns")
      let columns ← Yaml.editSequence (invalidInput "metadata columns must be a sequence")
        (fun columns => columns.mapM (addStableId assignments)) columns
      return Yaml.insert "columns" columns root) document

/-! ### Checking -/

omit [SerdeYaml] in
/-- The loop over the assignments, with the identities before the current one. -/
def validateStableIds (names : List String) (ids : List UInt32) :
    List (String × UInt32) → Result Unit
  | [] => .ok ()
  | (name, stableId) :: assigned => do
      failIf (name ∉ names) (invalidInput "stable id assignment references unknown column")
      failIf (stableId = 0) (invalidInput "stable column id must be positive")
      failIf (stableId ∈ ids) (invalidInput "stable column ids must be unique")
      validateStableIds names (ids ++ [stableId]) assigned

omit [SerdeYaml] in
def validateAssignments (columns : List ColumnSchema) (assignments : MigrationAssignments) :
    Result Unit := do
  failIf (assignments.stableIds.length ≠ columns.length)
    (invalidInput "stable id assignments must match metadata columns exactly")
  validateStableIds (columns.map (·.name)) [] assignments.stableIds

def validateV2 (source : List UInt8) : Result SchemaRevision := do
  let text ← okOr (invalidInput "metadata source must be utf-8") (fromUtf8 source)
  SchemaRevision.fromYaml text

/-! ### Planning and executing -/

variable [Crc32Fast] [Blake3]

/-- Build a deterministic v1-to-v2 plan without changing the source. -/
def plan (source : List UInt8) (assignments : MigrationAssignments) : Result MigrationPlan := do
  let sourceLen ← tryU64 source.length "metadata source is too large"
  let sourceChecksum := checksum32 source
  let sourceDigest := Blake3.hash source
  let text ← okOr (invalidInput "metadata source must be utf-8") (fromUtf8 source)
  let document ← okOr (invalidInput "invalid metadata document") (SerdeYaml.fromStr text)
  let sourceVersion ← metadataVersion document
  if sourceVersion = metadataVersionV1 then do
    let legacy ← okOr (invalidInput "invalid v1 metadata document")
      ((SerdeYaml.fromStr text).bind LegacyMetadata.ofYaml)
    failIf (legacy.metadataVersion ≠ metadataVersionV1 ∨ legacy.revision = 0)
      (invalidInput "invalid v1 metadata revision")
    let runtimeColumns := legacy.columns.map LegacyColumn.runtimeSchema
    let _ ← Schema.supportedColumnsV3 ⟨runtimeColumns⟩
    validateAssignments runtimeColumns assignments
    let document ← addStableIds document assignments
    let document ← setMetadataVersion document metadataVersionV2
    let migrated ← okOr (invalidInput "failed to encode migrated metadata")
      (SerdeYaml.toString document)
    let _ ← validateV2 (asBytes migrated)
    let columnCount ← tryU64 legacy.columns.length "metadata column count is too large"
    return {
      sourceVersion := sourceVersion
      targetVersion := metadataVersionV2
      action := .addStableColumnIds
      sourceLen := sourceLen
      sourceChecksum := sourceChecksum
      sourceDigest := sourceDigest
      columnCount := columnCount
      migrated := asBytes migrated }
  else if sourceVersion = metadataVersionV2 then do
    let revision ← validateV2 source
    failIf (assignments.stableIds ≠ [])
      (invalidInput "v2 metadata migration does not accept column assignments")
    let columnCount ← tryU64 revision.columns.length "metadata column count is too large"
    return {
      sourceVersion := sourceVersion
      targetVersion := metadataVersionV2
      action := .none
      sourceLen := sourceLen
      sourceChecksum := sourceChecksum
      sourceDigest := sourceDigest
      columnCount := columnCount
      migrated := source }
  else .error (unsupported "metadata version")

omit [Crc32Fast] in
/-- Execute a reviewed plan and return a new metadata buffer. -/
def execute (source : List UInt8) (plan : MigrationPlan) : Result (List UInt8) := do
  let sourceLen ← tryU64 source.length "metadata source is too large"
  failIf (sourceLen ≠ plan.sourceLen ∨ Blake3.hash source ≠ plan.sourceDigest)
    (invalidInput "metadata source does not match migration plan")
  let _ ← validateV2 plan.migrated
  return plan.migrated

/-! ### What the edits do -/

omit [SerdeYaml] [Crc32Fast] [Blake3] in
/-- The edit of a column. -/
theorem addStableId_ok {assignments : MigrationAssignments} {column column' : Yaml} :
    addStableId assignments column = .ok column' ↔ ∃ members nameValue name stableId,
      column.untag = .mapping members ∧ Yaml.get members "name" = some nameValue ∧
        nameValue.asStr = some name ∧ assignments.get name = some stableId ∧
        column' = column.retag (.mapping
          (Yaml.insert "stable_id" (.number (.posInt stableId.toUInt64)) members)) := by
  simp only [addStableId, Yaml.editMapping_ok, bind_ok, okOr_ok, Option.bind_eq_some_iff, pure_ok]
  constructor
  · rintro ⟨members, _, hmapping, ⟨name, ⟨nameValue, hget, hstr⟩, stableId, hid, rfl⟩, rfl⟩
    exact ⟨members, nameValue, name, stableId, hmapping, hget, hstr, hid, rfl⟩
  · rintro ⟨members, nameValue, name, stableId, hmapping, hget, hstr, hid, rfl⟩
    exact ⟨members, _, hmapping, ⟨name, ⟨nameValue, hget, hstr⟩, stableId, hid, rfl⟩, rfl⟩

omit [SerdeYaml] [Crc32Fast] [Blake3] in
/-- The edit of the columns. -/
theorem addStableIds_ok {assignments : MigrationAssignments} {document document' : Yaml} :
    addStableIds document assignments = .ok document' ↔ ∃ root columns items items',
      document.untag = .mapping root ∧ Yaml.get root "columns" = some columns ∧
        columns.untag = .sequence items ∧
        List.Forall₂ (fun column column' => addStableId assignments column = .ok column')
          items items' ∧
        document' = document.retag (.mapping
          (Yaml.insert "columns" (columns.retag (.sequence items')) root)) := by
  simp only [addStableIds, Yaml.editMapping_ok, Yaml.editSequence_ok, bind_ok, okOr_ok, mapM_ok,
    pure_ok]
  constructor
  · rintro ⟨root, _, hroot, ⟨columns, hget, _, ⟨items, items', hitems, hall, rfl⟩, rfl⟩, rfl⟩
    exact ⟨root, columns, items, items', hroot, hget, hitems, hall, rfl⟩
  · rintro ⟨root, columns, items, items', hroot, hget, hitems, hall, rfl⟩
    exact ⟨root, _, hroot, ⟨columns, hget, _, ⟨items, items', hitems, hall, rfl⟩, rfl⟩, rfl⟩

/-- What a migration should make of a column: it gets the identity of its name. -/
def MigratedColumn (assignments : MigrationAssignments) (column column' : Yaml) : Prop :=
  ∃ members members' nameValue name stableId,
    column.untag = .mapping members ∧ column' = column.retag (.mapping members') ∧
      Yaml.get members "name" = some nameValue ∧ nameValue.asStr = some name ∧
      assignments.get name = some stableId ∧
      Yaml.get members' "stable_id" = some (.number (.posInt stableId.toUInt64)) ∧
      Yaml.others ["stable_id"] members' = Yaml.others ["stable_id"] members

/-- What a migration should make of a document: it gets another version, and its columns get
identities.  Everything else is as it was, under the same keys in the same order. -/
def Migrated (assignments : MigrationAssignments) (tree tree' : Yaml) : Prop :=
  ∃ root root' columns columns' items items',
    tree.untag = .mapping root ∧ tree' = tree.retag (.mapping root') ∧
      root'.map Prod.fst = root.map Prod.fst ∧
      Yaml.others ["metadata_version", "columns"] root' =
        Yaml.others ["metadata_version", "columns"] root ∧
      Yaml.get root' "metadata_version" = some (.number (.posInt metadataVersionV2)) ∧
      Yaml.get root "columns" = some columns ∧ Yaml.get root' "columns" = some columns' ∧
      columns.untag = .sequence items ∧ columns' = columns.retag (.sequence items') ∧
      List.Forall₂ (MigratedColumn assignments) items items'

omit [SerdeYaml] [Crc32Fast] [Blake3] in
theorem migratedColumn_of_addStableId {assignments : MigrationAssignments} {column column' : Yaml}
    (h : addStableId assignments column = .ok column') :
    MigratedColumn assignments column column' := by
  obtain ⟨members, nameValue, name, stableId, hmapping, hget, hstr, hid, rfl⟩ := addStableId_ok.1 h
  refine ⟨members, _, nameValue, name, stableId, hmapping, rfl, hget, hstr, hid, ?_, ?_⟩
  · rw [Yaml.get_insert, if_pos rfl]
  · exact Yaml.others_insert List.mem_cons_self _ _

omit [SerdeYaml] [Crc32Fast] [Blake3] in
/-- **The edits migrate a document.** -/
theorem migrated_of_edits {assignments : MigrationAssignments} {tree edited tree' : Yaml}
    {version : UInt64} (hversion : metadataVersion tree = .ok version)
    (hadd : addStableIds tree assignments = .ok edited)
    (hset : setMetadataVersion edited metadataVersionV2 = .ok tree') :
    Migrated assignments tree tree' := by
  obtain ⟨root, columns, items, items', hroot, hget, hitems, hall, rfl⟩ := addStableIds_ok.1 hadd
  simp only [setMetadataVersion, Yaml.editMapping_ok, Yaml.untag_retag, Except.ok.injEq] at hset
  obtain ⟨_, _, hedited, rfl, rfl⟩ := hset
  cases hedited
  simp only [metadataVersion, bind_ok, okOr_ok, Yaml.asMapping_eq_some,
    Option.bind_eq_some_iff] at hversion
  obtain ⟨_, hmapping, old, hold, -⟩ := hversion
  rw [hroot] at hmapping
  cases hmapping
  have hne : ("columns" : String) ≠ "metadata_version" := by decide
  refine ⟨root, _, columns, _, items, items', hroot, Yaml.retag_retag _ _ _, ?_, ?_, ?_, hget, ?_,
    hitems, rfl, hall.imp fun _ _ => migratedColumn_of_addStableId⟩
  · rw [Yaml.keys_insert (by rw [Yaml.get_insert, if_neg hne, hold]), Yaml.keys_insert hget]
  · rw [Yaml.others_insert List.mem_cons_self,
      Yaml.others_insert (List.mem_cons_of_mem _ List.mem_cons_self)]
  · rw [Yaml.get_insert, if_pos rfl]
  · rw [Yaml.get_insert, if_neg hne.symm, Yaml.get_insert, if_pos rfl]

/-! ### The typed views agree on the edits -/

omit [Crc32Fast] [Blake3] in
/-- What is read off a migrated column is what was read off the column, under the identity of its
name. -/
theorem runtimeSchema_migrated {assignments : MigrationAssignments} {column column' : Yaml}
    {old : LegacyColumn} {new : EvolvedColumn} (h : MigratedColumn assignments column column')
    (hold : LegacyColumn.ofYaml column = some old)
    (hnew : EvolvedColumn.ofYaml column' = some new) :
    ⟨new.name, new.valueType, new.codec, new.nullable⟩ = old.runtimeSchema ∧
      assignments.get new.name = some new.stableId := by
  obtain ⟨members, members', nameValue, assigned, stableId, hmapping, rfl, hget, hstr, hid, hget',
    hothers⟩ := h
  simp only [LegacyColumn.ofYaml, Option.bind_eq_bind, Option.bind_eq_some_iff,
    readFields_eq_some] at hold
  obtain ⟨fs, ⟨_, hmapping', hfs⟩, name, hname, valueType, htype, codec, hcodec, nullable,
    hnullable, hold⟩ := hold
  rw [hmapping] at hmapping'
  cases hmapping'
  simp only [EvolvedColumn.ofYaml, Option.bind_eq_bind, Option.bind_eq_some_iff,
    readFields_eq_some, Yaml.untag_retag, Option.pure_def, Option.some.injEq] at hnew
  obtain ⟨fs', ⟨_, hmembers, hfs'⟩, newId, hnewId, name', hname', valueType', htype', codec',
    hcodec', nullable', hnullable', _, -, _, -, rfl⟩ := hnew
  cases hmembers
  -- the fields that both versions have are not touched
  rw [Yaml.required_of_others hothers (by decide) hfs hfs', hname] at hname'
  rw [Yaml.required_of_others hothers (by decide) hfs hfs', htype] at htype'
  rw [Yaml.required_of_others hothers (by decide) hfs hfs', hcodec] at hcodec'
  rw [Yaml.optional_of_others hothers (by decide) hfs hfs', hnullable] at hnullable'
  cases hname'
  cases htype'
  cases hcodec'
  cases hnullable'
  have hread := Yaml.required_of_get hfs' hget' hnewId
  rw [readU32_posInt] at hread
  cases hread
  have htext : readString nameValue = some name := Yaml.required_of_get hfs hget hname
  rw [readString, Yaml.text_of_asStr hstr] at htext
  cases htext
  split at hold
  · cases hold
    exact ⟨rfl, hid⟩
  · cases hold

omit [Crc32Fast] [Blake3] in
/-- The columns of a migrated document, read off both versions. -/
theorem runtimeSchemas_migrated {assignments : MigrationAssignments} {items items' : List Yaml}
    {olds : List LegacyColumn} {news : List EvolvedColumn}
    (h : List.Forall₂ (MigratedColumn assignments) items items')
    (holds : List.Forall₂ (fun column old => LegacyColumn.ofYaml column = some old) items olds)
    (hnews : List.Forall₂ (fun column new => EvolvedColumn.ofYaml column = some new) items' news) :
    news.map (fun new => ⟨new.name, new.valueType, new.codec, new.nullable⟩) =
        olds.map LegacyColumn.runtimeSchema ∧
      ∀ new ∈ news, assignments.get new.name = some new.stableId := by
  induction h generalizing olds news with
  | nil =>
      cases holds
      cases hnews
      exact ⟨rfl, fun new hnew => by cases hnew⟩
  | cons hcolumn _ ih =>
      rcases List.forall₂_cons_left_iff.1 holds with ⟨old, rest, hold, hrest, rfl⟩
      rcases List.forall₂_cons_left_iff.1 hnews with ⟨new, rest', hnew, hrest', rfl⟩
      rcases runtimeSchema_migrated hcolumn hold hnew with ⟨hschema, hid⟩
      rcases ih hrest hrest' with ⟨hschemas, hids⟩
      rw [List.map_cons, List.map_cons, hschema, hschemas, List.forall_mem_cons]
      exact ⟨rfl, hid, hids⟩

omit [Crc32Fast] [Blake3] in
/-- **The typed views agree on the edits**: the physical schema is the same, and every column has
the identity that its name was assigned. -/
theorem physicalSchema_migrated {assignments : MigrationAssignments} {tree tree' : Yaml}
    {legacy : LegacyMetadata} {revision : SchemaRevision} (h : Migrated assignments tree tree')
    (hlegacy : LegacyMetadata.ofYaml tree = some legacy)
    (hrevision : SchemaRevision.ofYaml tree' = some revision) :
    revision.physicalSchema = ⟨legacy.columns.map LegacyColumn.runtimeSchema⟩ ∧
      ∀ column ∈ revision.columns, assignments.get column.name = some column.stableId := by
  obtain ⟨root, root', columns, _, items, items', hroot, rfl, -, -, -, hget, hget', hitems, rfl,
    hall⟩ := h
  simp only [LegacyMetadata.ofYaml, Option.bind_eq_bind, Option.bind_eq_some_iff,
    readFields_eq_some, Option.pure_def, Option.some.injEq] at hlegacy
  obtain ⟨fs, ⟨_, hroot₁, hfs⟩, _, -, _, -, olds, holds, rfl⟩ := hlegacy
  simp only [SchemaRevision.ofYaml, Option.bind_eq_bind, Option.bind_eq_some_iff,
    readFields_eq_some, Yaml.untag_retag, Option.pure_def, Option.some.injEq] at hrevision
  obtain ⟨fs', ⟨_, hroot₂, hfs'⟩, _, -, news, hnews, rfl⟩ := hrevision
  rw [hroot] at hroot₁
  cases hroot₁
  cases hroot₂
  obtain ⟨_, hitems₁, holds⟩ := readVec_eq_some.1 (Yaml.required_of_get hfs hget holds)
  obtain ⟨_, hitems₂, hnews⟩ := readVec_eq_some.1 (Yaml.required_of_get hfs' hget' hnews)
  rw [hitems] at hitems₁
  rw [Yaml.untag_retag] at hitems₂
  cases hitems₁
  cases hitems₂
  obtain ⟨hschemas, hids⟩ := runtimeSchemas_migrated hall holds hnews
  exact ⟨congrArg Schema.mk hschemas, hids⟩

omit [SerdeYaml] [Crc32Fast] [Blake3] in
/-- A migrated document says so. -/
theorem metadataVersion_migrated {assignments : MigrationAssignments} {tree tree' : Yaml}
    (h : Migrated assignments tree tree') : metadataVersion tree' = .ok metadataVersionV2 := by
  obtain ⟨_, root', _, _, _, _, _, rfl, -, -, hversion, -⟩ := h
  simp only [metadataVersion, bind_ok, okOr_ok, Yaml.asMapping_eq_some, Yaml.untag_retag,
    Option.bind_eq_some_iff]
  exact ⟨root', rfl, _, hversion, rfl⟩

/-! ### What the checks establish -/

omit [SerdeYaml] [Crc32Fast] [Blake3] in
theorem validateStableIds_ok {names : List String} {ids : List UInt32}
    {assigned : List (String × UInt32)} {u : Unit} :
    validateStableIds names ids assigned = .ok u ↔
      (∀ assignment ∈ assigned, assignment.1 ∈ names ∧ assignment.2 ≠ 0 ∧ assignment.2 ∉ ids) ∧
        (assigned.map Prod.snd).Nodup := by
  induction assigned generalizing ids with
  | nil => simp [validateStableIds]
  | cons assignment assigned ih =>
      obtain ⟨name, stableId⟩ := assignment
      simp only [validateStableIds, bind_ok, failIf_ok, exists_const, not_not, ih, List.mem_append,
        List.mem_singleton, not_or, List.forall_mem_cons, List.map_cons, List.nodup_cons,
        List.mem_map, not_exists, not_and]
      constructor
      · rintro ⟨hname, hpos, hnew, hall, hnodup⟩
        refine ⟨⟨⟨hname, hpos, hnew⟩, fun a ha => ?_⟩, fun a ha => (hall a ha).2.2.2, hnodup⟩
        exact ⟨(hall a ha).1, (hall a ha).2.1, (hall a ha).2.2.1⟩
      · rintro ⟨⟨⟨hname, hpos, hnew⟩, hall⟩, hne, hnodup⟩
        refine ⟨hname, hpos, hnew, fun a ha => ?_, hnodup⟩
        exact ⟨(hall a ha).1, (hall a ha).2.1, (hall a ha).2.2, hne a ha⟩

omit [SerdeYaml] [Crc32Fast] [Blake3] in
theorem MigrationAssignments.names_nodup (assignments : MigrationAssignments) :
    assignments.names.Nodup := by
  refine assignments.sorted.imp fun {a b} hlt heq => ?_
  rw [heq] at hlt
  exact String.lt_irrefl b hlt

omit [SerdeYaml] [Crc32Fast] [Blake3] in
/-- **The check of the assignments** accepts those of the columns' names.  It only looks for unknown
names: there are as many assignments as columns, so no column goes without. -/
theorem mem_names_of_validateAssignments {columns : List ColumnSchema}
    {assignments : MigrationAssignments} {u : Unit}
    (h : validateAssignments columns assignments = .ok u) (name : String) :
    name ∈ assignments.names ↔ name ∈ columns.map (·.name) := by
  simp only [validateAssignments, bind_ok, failIf_ok, exists_const, not_not,
    validateStableIds_ok] at h
  obtain ⟨hlen, hall, -⟩ := h
  have hsub : assignments.names ⊆ columns.map (·.name) := by
    intro n hn
    obtain ⟨assignment, hmem, rfl⟩ := List.mem_map.1 hn
    exact (hall assignment hmem).1
  have hle : (columns.map (·.name)).length ≤ assignments.names.length := by
    rw [List.length_map, MigrationAssignments.names, List.length_map, hlen]
  exact ((List.subperm_of_subset assignments.names_nodup hsub).perm_of_length_le hle).mem_iff

/-- What a plan of version 1 goes through. -/
theorem plan_v1 {source : List UInt8} {text : String} {tree : Yaml}
    {assignments : MigrationAssignments} {p : MigrationPlan}
    (htext : fromUtf8 source = some text) (htree : SerdeYaml.fromStr text = some tree)
    (hversion : metadataVersion tree = .ok metadataVersionV1)
    (hplan : plan source assignments = .ok p) :
    ∃ legacy edited tree' text' revision,
      LegacyMetadata.ofYaml tree = some legacy ∧
        validateAssignments (legacy.columns.map LegacyColumn.runtimeSchema) assignments = .ok () ∧
        addStableIds tree assignments = .ok edited ∧
        setMetadataVersion edited metadataVersionV2 = .ok tree' ∧
        SerdeYaml.toString tree' = some text' ∧ SchemaRevision.fromYaml text' = .ok revision ∧
        p.sourceLen.toNat = source.length ∧ p.sourceDigest = Blake3.hash source ∧
        p.columnCount.toNat = legacy.columns.length ∧ p.migrated = asBytes text' := by
  simp only [plan, bind_ok, tryU64_ok, okOr_ok, htext, Option.some.injEq] at hplan
  obtain ⟨sourceLen, hsourceLen, _, rfl, _, htree', _, hversion', hplan⟩ := hplan
  rw [htree] at htree'
  cases htree'
  rw [hversion] at hversion'
  cases hversion'
  rw [if_pos rfl, htree, Option.bind_some] at hplan
  simp only [validateV2, bind_ok, tryU64_ok, okOr_ok, failIf_ok, exists_const, fromUtf8_asBytes,
    Option.some.injEq, pure_ok] at hplan
  obtain ⟨legacy, hlegacy, -, _, -, _, hassign, edited, hadd, tree', hset, text', hprint, revision,
    ⟨_, rfl, hrevision⟩, columnCount, hcount, rfl⟩ := hplan
  exact ⟨legacy, edited, tree', text', revision, hlegacy, hassign, hadd, hset, hprint, hrevision,
    hsourceLen, rfl, hcount, rfl⟩

/-- A valid document of version 2 is its own plan, and executing it gives it back. -/
theorem plan_v2 {source : List UInt8} {text : String} {tree : Yaml} {revision : SchemaRevision}
    (hfits : Fits source) (htext : fromUtf8 source = some text)
    (htree : SerdeYaml.fromStr text = some tree)
    (hversion : metadataVersion tree = .ok metadataVersionV2)
    (hrevision : SchemaRevision.fromYaml text = .ok revision)
    (hcount : revision.columns.length < 2 ^ 64) :
    ∃ p, plan source .empty = .ok p ∧ p.action = .none ∧ execute source p = .ok source := by
  have hsourceLen : (UInt64.ofNat source.length).toNat = source.length :=
    UInt64.toNat_ofNat_of_lt hfits
  have hcolumnCount : (UInt64.ofNat revision.columns.length).toNat = revision.columns.length :=
    UInt64.toNat_ofNat_of_lt hcount
  have hvalid : validateV2 source = .ok revision := by
    simp only [validateV2, bind_ok, okOr_ok]
    exact ⟨text, htext, hrevision⟩
  refine ⟨⟨metadataVersionV2, metadataVersionV2, .none, UInt64.ofNat source.length,
    checksum32 source, Blake3.hash source, UInt64.ofNat revision.columns.length, source⟩, ?_, rfl,
      ?_⟩
  · simp only [plan, bind_ok, tryU64_ok, okOr_ok]
    refine ⟨_, hsourceLen, text, htext, tree, htree, _, hversion, ?_⟩
    rw [if_neg (by decide), if_pos rfl]
    simp only [bind_ok, failIf_ok, exists_const, tryU64_ok, pure_ok]
    exact ⟨revision, hvalid, fun hne => hne rfl, _, hcolumnCount, rfl⟩
  · simp only [execute, bind_ok, tryU64_ok, failIf_ok, exists_const, pure_ok]
    exact ⟨_, hsourceLen, fun hne => hne.elim (fun h => h rfl) fun h => h rfl, revision, hvalid,
      trivial⟩

/-- **A migration changes what it says, and is idempotent.**  Where printing a document is undone by
reading it, a plan for a document of version 1 makes the migrated document out of it: a valid
revision with the same physical schema, whose columns have the identities of their names.  There is
a plan only if the assigned names are those of the columns.  The result is its own migration. -/
theorem execute_migrated (hinverse : SerdeYaml.Inverse) {source : List UInt8} {text : String}
    {tree : Yaml} {assignments : MigrationAssignments} {p : MigrationPlan}
    (htext : fromUtf8 source = some text) (htree : SerdeYaml.fromStr text = some tree)
    (hversion : metadataVersion tree = .ok metadataVersionV1)
    (hplan : plan source assignments = .ok p) :
    ∃ legacy out text' tree' revision,
      LegacyMetadata.ofYaml tree = some legacy ∧
        (∀ name, name ∈ assignments.names ↔ name ∈ legacy.columns.map (·.name)) ∧
        execute source p = .ok out ∧ fromUtf8 out = some text' ∧
        SerdeYaml.fromStr text' = some tree' ∧ Migrated assignments tree tree' ∧
        SchemaRevision.fromYaml text' = .ok revision ∧
        revision.physicalSchema = ⟨legacy.columns.map LegacyColumn.runtimeSchema⟩ ∧
        (∀ column ∈ revision.columns, assignments.get column.name = some column.stableId) ∧
        (revision.columns.map (·.stableId)).Nodup ∧
        (∀ column ∈ revision.columns, column.stableId ≠ 0) ∧
        (Fits out →
          ∃ p', plan out .empty = .ok p' ∧ p'.action = .none ∧ execute out p' = .ok out) := by
  obtain ⟨legacy, edited, tree', text', revision, hlegacy, hassign, hadd, hset, hprint, hrevision,
    hsourceLen, hdigest, hcount, hout⟩ := plan_v1 htext htree hversion hplan
  have hmigrated := migrated_of_edits hversion hadd hset
  have htree' : SerdeYaml.fromStr text' = some tree' := hinverse tree' text' hprint
  obtain ⟨⟨_, hread, hofYaml⟩, hvalidate⟩ := SchemaRevision.fromYaml_ok.1 hrevision
  rw [htree'] at hread
  cases hread
  obtain ⟨hschema, hids⟩ := physicalSchema_migrated hmigrated hlegacy hofYaml
  obtain ⟨-, -, hpos, -, -, hvalid, -⟩ := SchemaRevision.validate_ok.1 hvalidate
  have hnames : (legacy.columns.map LegacyColumn.runtimeSchema).map (·.name) =
      legacy.columns.map (·.name) := List.map_map
  have hlength : revision.columns.length = legacy.columns.length := by
    simpa [SchemaRevision.physicalSchema] using congrArg (·.columns.length) hschema
  refine ⟨legacy, asBytes text', text', tree', revision, hlegacy, ?_, ?_, fromUtf8_asBytes _,
    htree', hmigrated, hrevision, hschema, hids, hvalid.stableIds, hpos, ?_⟩
  · intro name
    rw [← hnames]
    exact mem_names_of_validateAssignments hassign name
  · simp only [execute, validateV2, bind_ok, tryU64_ok, failIf_ok, exists_const, okOr_ok, pure_ok]
    refine ⟨p.sourceLen, hsourceLen, ?_, revision, ⟨text', ?_, hrevision⟩, hout⟩
    · rintro (hne | hne)
      · exact hne rfl
      · exact hne hdigest.symm
    · rw [hout, fromUtf8_asBytes]
  · intro hfits
    refine plan_v2 hfits (fromUtf8_asBytes _) htree' (metadataVersion_migrated hmigrated) hrevision
      ?_
    rw [hlength, ← hcount]
    exact p.columnCount.toNat_lt

end

/-! ### A document -/

namespace Sample

open scoped CompactCore.Reference

/-- A document of version 1, with members that the metadata does not know. -/
def textV1 : String :=
  "metadata_version: 1\nrevision: 7\nowner: storage-team\ncolumns:\n" ++
    "- name: id\n  type: u64\n  codec: auto\n  role: key\n"

def treeV1 : Yaml := .mapping [
  (.string "metadata_version", .number (.posInt 1)),
  (.string "revision", .number (.posInt 7)),
  (.string "owner", .string "storage-team"),
  (.string "columns", .sequence [.mapping [
    (.string "name", .string "id"),
    (.string "type", .string "u64"),
    (.string "codec", .string "auto"),
    (.string "role", .string "key")]])]

/-- The document after its migration. -/
def textV2 : String :=
  "metadata_version: 2\nrevision: 7\nowner: storage-team\ncolumns:\n" ++
    "- name: id\n  type: u64\n  codec: auto\n  role: key\n  stable_id: 10\n"

@[match_pattern] def treeV2 : Yaml := .mapping [
  (.string "metadata_version", .number (.posInt 2)),
  (.string "revision", .number (.posInt 7)),
  (.string "owner", .string "storage-team"),
  (.string "columns", .sequence [.mapping [
    (.string "name", .string "id"),
    (.string "type", .string "u64"),
    (.string "codec", .string "auto"),
    (.string "role", .string "key"),
    (.string "stable_id", .number (.posInt 10))]])]

def fromStr (text : String) : Option Yaml :=
  if text = textV1 then some treeV1 else if text = textV2 then some treeV2 else none

def print : Yaml → Option String
  | treeV2 => some textV2
  | _ => none

/-- The two documents, read and printed as `serde_yaml` does. -/
scoped instance serdeYaml : SerdeYaml := ⟨fromStr, print, fun _ => "", fun _ => none⟩

theorem fromStr_textV1 : fromStr textV1 = some treeV1 := by
  rw [fromStr, if_pos rfl]

theorem fromStr_textV2 : fromStr textV2 = some treeV2 := by
  have hne : textV2 ≠ textV1 := by decide +kernel
  rw [fromStr, if_neg hne, if_pos rfl]

theorem inverse : SerdeYaml.Inverse := by
  intro tree text h
  change print tree = some text at h
  unfold print at h
  split at h
  · cases h
    exact fromStr_textV2
  · cases h

def assignments : MigrationAssignments := ⟨[("id", 10)], by decide⟩

end Sample

open Sample

open scoped CompactCore.Reference

set_option maxRecDepth 8192 in
/-- The migration of the document. -/
theorem execute_migrated_sample : ∃ p out text' tree',
    plan (asBytes textV1) assignments = .ok p ∧ execute (asBytes textV1) p = .ok out ∧
      fromUtf8 out = some text' ∧ SerdeYaml.fromStr text' = some tree' ∧
      Migrated assignments treeV1 tree' := by
  obtain ⟨p, hplan, -⟩ := Reference.exists_ok (x := plan (asBytes textV1) assignments)
    (fun p => p.action = .addStableColumnIds) (by decide +kernel)
  obtain ⟨_, out, text', tree', _, -, -, hexecute, hutf8, htree, hmigrated, -⟩ :=
    execute_migrated inverse (fromUtf8_asBytes textV1) fromStr_textV1 (by decide +kernel) hplan
  exact ⟨p, out, text', tree', hplan, hexecute, hutf8, htree, hmigrated⟩

end CompactCore.Storage.Migration
