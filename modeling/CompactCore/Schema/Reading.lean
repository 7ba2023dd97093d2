/-
**Old files under new revisions.**

A file is decoded under the revision that it was written with, and its rows then go through the plan
that leads to the revision of the reader.  Nothing of this depends on what the bytes are: whatever a
decoder accepts is a table of the writer's columns, so the plan finds every value that it asks for,
in any of the formats.

Main definitions:

* `CompactCore.Evolution.Compatible` — there is a plan without issues.

Main results:

* `CompactCore.Evolution.decodePhysical_tabular` — what is decoded is a table;
* `CompactCore.Evolution.decodeJsonl_reads` — **a file can be read under a later revision precisely
  when it can be read at all**, and the reader gets the writer's values.
-/

import CompactCore.Reference.Json
import Mathlib.Data.String.Basic

set_option relaxedAutoImplicit false
set_option autoImplicit false

namespace CompactCore

open Wire

/-! ### Maps in order -/

theorem Map.mem_keys_insert {key k : String} {value : Value} {row : Map}
    (h : k ∈ (Map.insert key value row).map Prod.fst) : k = key ∨ k ∈ row.map Prod.fst := by
  induction row with
  | nil => exact .inl (List.mem_singleton.1 h)
  | cons member row ih =>
      obtain ⟨k', v⟩ := member
      rw [insert] at h
      split_ifs at h with hlt heq
      · exact List.mem_cons.1 h
      · exact .inr h
      · rcases List.mem_cons.1 h with rfl | h
        · exact .inr List.mem_cons_self
        · exact (ih h).imp_right (List.mem_cons_of_mem _)

/-- A map stays in order. -/
theorem Map.pairwise_insert {key : String} {value : Value} {row : Map}
    (h : (row.map Prod.fst).Pairwise (· < ·)) :
    ((Map.insert key value row).map Prod.fst).Pairwise (· < ·) := by
  induction row with
  | nil => exact List.pairwise_singleton _ _
  | cons member row ih =>
      obtain ⟨k', v⟩ := member
      obtain ⟨hfirst, hrest⟩ := List.pairwise_cons.1 h
      rw [insert]
      split_ifs with hlt heq
      · refine List.pairwise_cons.2 ⟨?_, h⟩
        intro k hk
        rcases List.mem_cons.1 hk with rfl | hk
        · exact hlt
        · exact hlt.trans (hfirst k hk)
      · exact h
      · refine List.pairwise_cons.2 ⟨?_, ih hrest⟩
        intro k hk
        rcases mem_keys_insert hk with rfl | hk
        · exact lt_of_le_of_ne (not_lt.1 hlt) (Ne.symm heq)
        · exact hfirst k hk

namespace Evolution

open CompactError Io Streaming

section

variable [SerdeJson] [Crc32Fast]

/-! ### Decoding under the writer's revision -/

/-- Two revisions with a plan that has no issues. -/
def Compatible (writer reader : SchemaRevision) : Prop :=
  ∃ assessment, assess writer reader = .ok assessment ∧ assessment.issues = []

/-- **What is decoded is a table**, whatever the format. -/
theorem decodePhysical_tabular {data : List UInt8} {schema : Schema} {text : String}
    (hfit : Fits data) (h : decodePhysical data schema = .ok text) :
    Tabular schema.columns text := by
  simp only [decodePhysical, bind_ok] at h
  obtain ⟨format, -, h⟩ := h
  cases format with
  | v1 => cases h
  | v2 =>
      simp only [bind_ok, okOr_ok] at h
      obtain ⟨bytes, hbytes, htext⟩ := h
      obtain ⟨decoded, rfl, htabular⟩ := decodeJsonlStream_tabular hfit hbytes
      rw [fromUtf8_asBytes] at htext
      cases htext
      exact htabular
  | v3 => exact V3.decodeJsonl_tabular h
  | v4 => exact V4.decodeJsonl_tabular h

/-- Reading a file is decoding it under the writer's revision, and applying a plan without
issues. -/
theorem decodeJsonl_ok [Blake3] {data : List UInt8} {writer reader : SchemaRevision}
    {output : String} : decodeJsonl data writer reader = .ok output ↔
      ∃ assessment, assess writer reader = .ok assessment ∧ assessment.issues = [] ∧
        ∃ text, decodePhysical data writer.physicalSchema = .ok text ∧
          applyActions text assessment.actions = .ok output := by
  have hcompatible : ∀ assessment : EvolutionAssessment,
      ¬assessment.isCompatible = false ↔ assessment.issues = [] := by
    intro assessment
    rw [EvolutionAssessment.isCompatible, Bool.not_eq_false, List.isEmpty_iff]
  simp only [decodeJsonl, bind_ok, failIf_ok, hcompatible]
  constructor
  · rintro ⟨assessment, hassess, -, hissues, text, htext, happly⟩
    exact ⟨assessment, hassess, hissues, text, htext, happly⟩
  · rintro ⟨assessment, hassess, hissues, text, htext, happly⟩
    exact ⟨assessment, hassess, (), hissues, text, htext, happly⟩

end

/-! ### Rows under the reader's revision -/

/-- A value that a physical column has is one that the logical column takes. -/
theorem takes_of_hasType {column : EvolvedColumn} {value : Value}
    (h : V3.HasType ⟨column.name, column.valueType, column.codec, column.nullable⟩ value) :
    column.Takes value := by
  rw [V3.HasType] at h
  rw [EvolvedColumn.Takes]
  revert h
  cases column.valueType <;> exact fun h => h

theorem nodup_physicalSchema {revision : SchemaRevision} (hvalid : revision.Valid) :
    (revision.physicalSchema.columns.map (·.name)).Nodup := by
  rw [SchemaRevision.physicalSchema, List.map_map]
  exact hvalid.names

theorem nodup_of_isRow {revision : SchemaRevision} {row : Map}
    (hrow : IsRow revision.physicalSchema.columns row) (hvalid : revision.Valid) :
    (row.map Prod.fst).Nodup := by
  rw [hrow.keys]
  exact nodup_physicalSchema hvalid

/-- The rows of a table conform to the revision that it was written with. -/
theorem conforms_of_isRow {revision : SchemaRevision} (hvalid : revision.Valid) {row : Map}
    (hrow : IsRow revision.physicalSchema.columns row) : Conforms revision.columns row := by
  intro column hcolumn
  have hphysical : ⟨column.name, column.valueType, column.codec, column.nullable⟩ ∈
      revision.physicalSchema.columns := List.mem_map.2 ⟨column, hcolumn, rfl⟩
  obtain ⟨value, hvalue, htype⟩ := hrow.exists_get (nodup_physicalSchema hvalid) hphysical
  exact ⟨value, hvalue, takes_of_hasType htype⟩

/-- What is delivered depends on the values of a row only. -/
theorem delivered_congr {writer : SchemaRevision} {row object : Map}
    (hsame : ∀ key, object.get key = row.get key) (column : EvolvedColumn) :
    delivered writer object column = delivered writer row column := by
  rw [delivered, delivered]
  split
  · rw [hsame]
  · rfl

/-- A row that is put together is in order. -/
theorem pairwise_evolveRow {actions : List EvolutionAction} {source target : Map}
    (h : evolveRow actions source = .ok target) : (target.map Prod.fst).Pairwise (· < ·) := by
  refine foldlM_invariant (P := fun _ (target : Map) => (target.map Prod.fst).Pairwise (· < ·)) ?_
    List.Pairwise.nil h
  intro _ action target target' htarget hstep
  cases action with
  | read _ sourceName targetName =>
      simp only [applyAction, bind_ok, pure_ok] at hstep
      obtain ⟨_, -, rfl⟩ := hstep
      exact Map.pairwise_insert htarget
  | fillDefault _ targetName value =>
      cases hstep
      exact Map.pairwise_insert htarget
  | fillNull _ targetName =>
      cases hstep
      exact Map.pairwise_insert htarget
  | drop _ _ =>
      cases hstep
      exact htarget

/-- Rows that are read of a table go through a plan without issues. -/
theorem exists_targets {writer reader : SchemaRevision} {assessment : EvolutionAssessment}
    (hwriter : writer.Valid) (hreader : reader.Valid)
    (hassess : assess writer reader = .ok assessment) (hissues : assessment.issues = [])
    {rows objects : List Map} (hrows : ∀ row ∈ rows, Conforms writer.columns row)
    (hsame : List.Forall₂ (fun row (object : Map) => ∀ key, object.get key = row.get key) rows
      objects) :
    ∃ targets, objects.mapM (evolveRow assessment.actions) = .ok targets ∧
      List.Forall₂ (Delivers writer reader) rows targets ∧
      ∀ target ∈ targets, (target.map Prod.fst).Pairwise (· < ·) := by
  induction hsame with
  | nil => exact ⟨[], rfl, .nil, List.forall_mem_nil _⟩
  | @cons row object rows objects hget _ ih =>
      obtain ⟨hrow, hrows⟩ := List.forall_mem_cons.1 hrows
      obtain ⟨targets, htargets, hdelivers, hsorted⟩ := ih hrows
      have hobject : Conforms writer.columns object := by
        intro column hcolumn
        rw [hget]
        exact hrow column hcolumn
      obtain ⟨target, htarget, hkeys, hvalues⟩ := evolveRow_assess hwriter hreader hassess hissues
        hobject
      refine ⟨target :: targets, ?_, .cons ⟨hkeys, ?_⟩ hdelivers,
        List.forall_mem_cons.2 ⟨pairwise_evolveRow htarget, hsorted⟩⟩
      · rw [List.mapM_cons, htarget, htargets]
        rfl
      · intro column hcolumn
        rw [← delivered_congr hget]
        exact hvalues column hcolumn

section

variable [SerdeJson] [Crc32Fast]

omit [Crc32Fast] in
/-- A text of rows goes through a plan without issues. -/
theorem exists_applyActions {writer reader : SchemaRevision} {assessment : EvolutionAssessment}
    (hline : OneLine) (hread : ReadsBack) (hwriter : writer.Valid) (hreader : reader.Valid)
    (hassess : assess writer reader = .ok assessment) (hissues : assessment.issues = [])
    {rows : List Map} (hkeys : ∀ row ∈ rows, (row.map Prod.fst).Nodup)
    (hplain : ∀ row ∈ rows, ∀ member ∈ row, Plain member.2)
    (hrows : ∀ row ∈ rows, Conforms writer.columns row) :
    ∃ targets, List.Forall₂ (Delivers writer reader) rows targets ∧
      (∀ target ∈ targets, (target.map Prod.fst).Pairwise (· < ·)) ∧
      applyActions (objectLines rows) assessment.actions =
        .ok (String.join (targets.map fun row => renderMap row ++ "\n")) := by
  obtain ⟨objects, hobjects, hsame⟩ := parseRows_plain hline hread hkeys hplain
  obtain ⟨targets, htargets, hdelivers, hsorted⟩ :=
    exists_targets hwriter hreader hassess hissues hrows hsame
  exact ⟨targets, hdelivers, hsorted, applyActions_eq hobjects htargets⟩

omit [SerdeJson] [Crc32Fast] in
/-- Revisions that are compared are valid. -/
theorem valid_of_assess {writer reader : SchemaRevision} {assessment : EvolutionAssessment}
    (h : assess writer reader = .ok assessment) : writer.Valid ∧ reader.Valid := by
  simp only [assess, bind_ok] at h
  obtain ⟨_, hwriter, _, hreader, -⟩ := h
  obtain ⟨-, -, -, -, -, hwriter, -⟩ := SchemaRevision.validate_ok.1 hwriter
  obtain ⟨-, -, -, -, -, hreader, -⟩ := SchemaRevision.validate_ok.1 hreader
  exact ⟨hwriter, hreader⟩

/-- A table that was decoded goes through a plan without issues. -/
theorem exists_reading {data : List UInt8} {writer reader : SchemaRevision} (hfit : Fits data)
    (hline : OneLine) (hread : ReadsBack) {assessment : EvolutionAssessment}
    (hassess : assess writer reader = .ok assessment) (hissues : assessment.issues = [])
    {text : String} (htext : decodePhysical data writer.physicalSchema = .ok text) :
    ∃ rows targets, text = objectLines rows ∧
      (∀ row ∈ rows, IsRow writer.physicalSchema.columns row) ∧
      (∀ row ∈ rows, Conforms writer.columns row) ∧
      List.Forall₂ (Delivers writer reader) rows targets ∧
      (∀ target ∈ targets, (target.map Prod.fst).Pairwise (· < ·)) ∧
      applyActions text assessment.actions =
        .ok (String.join (targets.map fun row => renderMap row ++ "\n")) := by
  obtain ⟨hwriter, hreader⟩ := valid_of_assess hassess
  obtain ⟨rows, hrows, rfl⟩ := decodePhysical_tabular hfit htext
  have hconforms : ∀ row ∈ rows, Conforms writer.columns row :=
    fun row hrow => conforms_of_isRow hwriter (hrows row hrow)
  obtain ⟨targets, hdelivers, hsorted, happly⟩ := exists_applyActions hline hread hwriter hreader
    hassess hissues (fun row hrow => nodup_of_isRow (hrows row hrow) hwriter)
    (fun row hrow => (hrows row hrow).plain) hconforms
  exact ⟨rows, targets, rfl, hrows, hconforms, hdelivers, hsorted, happly⟩

/-- **A file can be read under a later revision precisely when it can be read at all.**  Then every
row of the writer becomes one row of the reader, in order, with the values that belong to the
identities of the reader's columns. -/
theorem decodeJsonl_reads [Blake3] {data : List UInt8} {writer reader : SchemaRevision}
    (hfit : Fits data) (hline : OneLine) (hread : ReadsBack) :
    ((∃ output, decodeJsonl data writer reader = .ok output) ↔ Compatible writer reader ∧
      ∃ text, decodePhysical data writer.physicalSchema = .ok text) ∧
    ∀ output, decodeJsonl data writer reader = .ok output → ∃ rows targets,
      decodePhysical data writer.physicalSchema = .ok (objectLines rows) ∧
        (∀ row ∈ rows, Conforms writer.columns row) ∧
        List.Forall₂ (Delivers writer reader) rows targets ∧
        output = String.join (targets.map fun row => renderMap row ++ "\n") := by
  refine ⟨⟨?_, ?_⟩, ?_⟩
  · rintro ⟨output, h⟩
    obtain ⟨assessment, hassess, hissues, text, htext, -⟩ := decodeJsonl_ok.1 h
    exact ⟨⟨assessment, hassess, hissues⟩, text, htext⟩
  · rintro ⟨⟨assessment, hassess, hissues⟩, text, htext⟩
    obtain ⟨rows, targets, -, -, -, -, -, happly⟩ :=
      exists_reading hfit hline hread hassess hissues htext
    exact ⟨_, decodeJsonl_ok.2 ⟨assessment, hassess, hissues, text, htext, happly⟩⟩
  · intro output h
    obtain ⟨assessment, hassess, hissues, text, htext, happly⟩ := decodeJsonl_ok.1 h
    obtain ⟨rows, targets, rfl, -, hrows, hdelivers, -, happly'⟩ :=
      exists_reading hfit hline hread hassess hissues htext
    rw [happly'] at happly
    cases happly
    exact ⟨rows, targets, htext, hrows, hdelivers, rfl⟩

end

open scoped CompactCore.Reference.Json

/-- A revision, and a later one in which its column has another name and a second one is new. -/
def renamed : SchemaRevision × SchemaRevision :=
  (⟨1, [⟨1, "id", .u64, .stored, false, [], none⟩]⟩,
    ⟨2, [⟨1, "number", .u64, .stored, false, [], none⟩,
      ⟨2, "name", .string, .stored, false, [], some (.string "none")⟩]⟩)

set_option maxRecDepth 8192 in
/-- Two rows, read under the later revision. -/
theorem decodeJsonl_reads_renamed : ∃ data output rows targets,
    Io.V3.encodeJsonl Reference.idLines renamed.1.physicalSchema = .ok data ∧
      decodeJsonl data renamed.1 renamed.2 = .ok output ∧
      decodePhysical data renamed.1.physicalSchema = .ok (objectLines rows) ∧
      List.Forall₂ (Delivers renamed.1 renamed.2) rows targets ∧
      output = String.join (targets.map fun row => renderMap row ++ "\n") := by
  obtain ⟨data, hdata, hfit, hdecode⟩ := Reference.exists_ok
    (x := Io.V3.encodeJsonl Reference.idLines renamed.1.physicalSchema)
    (fun data => Fits data ∧
      decodePhysical data renamed.1.physicalSchema = .ok Reference.idLines) (by decide +kernel)
  obtain ⟨hiff, hreads⟩ := @decodeJsonl_reads _ _ _ data renamed.1 renamed.2 hfit
    Reference.Json.oneLine Reference.Json.readsBack
  obtain ⟨output, houtput⟩ := hiff.2 ⟨⟨_, rfl, rfl⟩, Reference.idLines, hdecode⟩
  obtain ⟨rows, targets, htext, -, hdelivers, hjoin⟩ := hreads output houtput
  exact ⟨data, output, rows, targets, hdata, houtput, htext, hdelivers, hjoin⟩

end Evolution

end CompactCore
