/-
**Files that are brought up to date.**

A file of an old revision can be read under a newer one, and the text that is read can be encoded
under the newer revision.  A file may go through many revisions so.  A later reader gets from the
last file what it would have got from the first one, as long as no revision in between drops an
identity that the reader asks for, or fills it in with another value than the reader would.

The order of the fields changes on the way: a row that is put together is a map in order, and a
decoder renders the columns as the schema has them.  So sizes are compared up to the order of the
members.

Main definitions:

* `CompactCore.Evolution.Keeps` — a revision in between does not touch what a reader gets;
* `CompactCore.Evolution.Upgraded` — a file is read under another revision and encoded again.

Main results:

* `CompactCore.Evolution.delivered_trans` — a reader gets the same value through a revision in
  between;
* `CompactCore.Evolution.Compatible.trans` — compatibility goes through a revision in between;
* `CompactCore.Evolution.decodeJsonl_upgraded` — **upgrades do not change what a later reader
  gets**.
-/

import CompactCore.Storage.Conversion
import CompactCore.Streaming.Rolling

set_option relaxedAutoImplicit false
set_option autoImplicit false

namespace CompactCore

open Wire

/-! ### Maps and their members -/

theorem Map.get_of_not_mem {row : Map} {key : String} (h : key ∉ row.map Prod.fst) :
    row.get key = none := by
  induction row with
  | nil => rfl
  | cons member row ih =>
      rw [List.map_cons, List.mem_cons, not_or] at h
      rw [Map.get_cons, if_neg h.1, ih h.2]

/-- A map is its keys with their values. -/
theorem Map.eq_keys {row : Map} (hnodup : (row.map Prod.fst).Nodup) :
    (row.map Prod.fst).map (fun key => (key, (row.get key).getD .null)) = row := by
  rw [List.map_map]
  refine (List.map_congr_left ?_).trans (List.map_id row)
  intro member hmember
  rw [Function.comp_apply, Map.get_of_mem hnodup hmember]
  rfl

/-- The order of the members does not matter to the values of a map. -/
theorem Map.get_perm {row row' : Map} (hnodup : (row.map Prod.fst).Nodup) (h : row.Perm row')
    (key : String) : row'.get key = row.get key := by
  have hnodup' : (row'.map Prod.fst).Nodup := (h.map Prod.fst).nodup_iff.1 hnodup
  by_cases hmem : key ∈ row.map Prod.fst
  · obtain ⟨member, hmember, rfl⟩ := List.mem_map.1 hmem
    rw [Map.get_of_mem hnodup hmember, Map.get_of_mem hnodup' (h.mem_iff.1 hmember)]
  · have hmem' : key ∉ row'.map Prod.fst := fun h' => hmem ((h.map Prod.fst).mem_iff.2 h')
    rw [Map.get_of_not_mem hmem, Map.get_of_not_mem hmem']

theorem Map.eq_of_get {row row' : Map} (hnodup : (row.map Prod.fst).Nodup)
    (hkeys : row.map Prod.fst = row'.map Prod.fst)
    (hget : ∀ key ∈ row.map Prod.fst, row.get key = row'.get key) : row = row' := by
  have hnodup' : (row'.map Prod.fst).Nodup := hkeys ▸ hnodup
  rw [← Map.eq_keys hnodup, ← Map.eq_keys hnodup', ← hkeys]
  refine List.map_congr_left ?_
  intro key hkey
  rw [hget key hkey]

section

variable [SerdeJson]

/-- The bytes of a member with a comma. -/
def memberSize (member : String × Value) : ℕ :=
  1 + (SerdeJson.toString member.1).utf8ByteSize + 1 + (SerdeJson.display member.2).utf8ByteSize

theorem utf8ByteSize_foldl (members : List (String × Value)) (out : String) {n : ℕ} (hn : 0 < n) :
    ((members.zipIdx n).foldl (fun out member =>
      (if 0 < member.2 then out ++ "," else out) ++ SerdeJson.toString member.1.1 ++ ":" ++
        SerdeJson.display member.1.2) out).utf8ByteSize =
      out.utf8ByteSize + (members.map memberSize).sum := by
  have hcomma : ",".utf8ByteSize = 1 := rfl
  have hcolon : ":".utf8ByteSize = 1 := rfl
  induction members generalizing out n with
  | nil => rfl
  | cons member members ih =>
      rw [List.zipIdx_cons, List.foldl_cons, ih _ (Nat.succ_pos n), if_pos hn, List.map_cons,
        List.sum_cons, memberSize]
      simp only [String.utf8ByteSize_append, hcomma, hcolon]
      omega

/-- The size of an object, without the comma in front of its first member. -/
theorem utf8ByteSize_renderObject (members : List (String × Value)) :
    (renderObject members).utf8ByteSize =
      2 + (members.map memberSize).sum - min 1 members.length := by
  have hopen : "\x7b".utf8ByteSize = 1 := rfl
  have hclose : "\x7d".utf8ByteSize = 1 := rfl
  have hcolon : ":".utf8ByteSize = 1 := rfl
  cases members with
  | nil => rfl
  | cons member members =>
      rw [renderObject, List.zipIdx_cons, List.foldl_cons, String.utf8ByteSize_append,
        utf8ByteSize_foldl members _ (Nat.succ_pos 0), List.map_cons, List.sum_cons, memberSize,
        List.length_cons]
      simp only [Nat.lt_irrefl, if_false, String.utf8ByteSize_append, hopen, hclose, hcolon]
      omega

/-- The order of the members does not matter to the size. -/
theorem utf8ByteSize_renderObject_perm {members members' : List (String × Value)}
    (h : members.Perm members') :
    (renderObject members).utf8ByteSize = (renderObject members').utf8ByteSize := by
  rw [utf8ByteSize_renderObject, utf8ByteSize_renderObject, (h.map memberSize).sum_eq, h.length_eq]

end

namespace Evolution

open Io Streaming Storage

/-! ### A revision in between -/

/-- A revision in between does not touch what a reader gets: an identity that the reader asks for is
not dropped, and where it is new it is filled in as the reader would. -/
def Keeps (writer middle reader : SchemaRevision) : Prop :=
  ∀ column ∈ reader.columns,
    match writer.column? column.stableId, middle.column? column.stableId with
    | some _, none => False
    | none, some middleColumn => middleColumn.default.getD .null = column.default.getD .null
    | _, _ => True

section

variable {writer middle reader : SchemaRevision}

/-- **A reader gets the same value through a revision in between.** -/
theorem delivered_trans (hmiddle : middle.Valid) {row target : Map}
    (h : Delivers writer middle row target) (hkeeps : Keeps writer middle reader)
    {column : EvolvedColumn} (hcolumn : column ∈ reader.columns) :
    delivered middle target column = delivered writer row column := by
  have hkept := hkeeps column hcolumn
  cases hmid : middle.column? column.stableId with
  | none =>
      rw [hmid] at hkept
      cases hwrite : writer.column? column.stableId with
      | none => simp only [delivered, hmid, hwrite]
      | some writerColumn =>
          rw [hwrite] at hkept
          exact hkept.elim
  | some middleColumn =>
      obtain ⟨hmem, hid⟩ := hmiddle.column?.1 hmid
      have htarget : delivered middle target column = delivered writer row middleColumn := by
        simp only [delivered, hmid, (h.values middleColumn hmem).1, Option.getD_some]
      rw [htarget, delivered, delivered, hid]
      cases hwrite : writer.column? column.stableId with
      | none =>
          rw [hmid, hwrite] at hkept
          exact hkept
      | some writerColumn => rfl

/-- What is delivered conforms to the revision that it is delivered under. -/
theorem Delivers.conforms {row target : Map} (h : Delivers writer middle row target) :
    Conforms middle.columns target :=
  fun column hcolumn => ⟨_, h.values column hcolumn⟩

theorem EvolvedColumn.Takes.plain {column : EvolvedColumn} {value : Value}
    (h : column.Takes value) :
    Plain value :=
  h.imp And.left fun h => ⟨_, h⟩

theorem Delivers.nodup {row target : Map} (h : Delivers writer middle row target)
    (hmiddle : middle.Valid) : (target.map Prod.fst).Nodup :=
  h.keys.nodup_iff.2 hmiddle.names

theorem Delivers.plain {row target : Map} (h : Delivers writer middle row target)
    (hmiddle : middle.Valid) : ∀ member ∈ target, Plain member.2 := by
  rintro ⟨key, value⟩ hmember
  obtain ⟨column, hcolumn, rfl⟩ :=
    List.mem_map.1 (h.keys.mem_iff.1 (List.mem_map_of_mem (f := Prod.fst) hmember))
  obtain ⟨hvalue, htakes⟩ := h.values column hcolumn
  rw [Map.get_of_mem (h.nodup hmiddle) hmember, Option.some.injEq] at hvalue
  exact hvalue ▸ htakes.plain

/-- **Compatibility goes through a revision in between.** -/
theorem Compatible.trans (h : Compatible writer middle) (h' : Compatible middle reader)
    (hkeeps : Keeps writer middle reader) : Compatible writer reader := by
  obtain ⟨first, hfirst, hnone⟩ := h
  obtain ⟨second, hsecond, hnone'⟩ := h'
  obtain ⟨hwriter, hmiddle⟩ := valid_of_assess hfirst
  obtain ⟨-, hreader⟩ := valid_of_assess hsecond
  obtain ⟨assessment, hassess⟩ : ∃ assessment, assess writer reader = .ok assessment := by
    simp only [assess, bind_ok, pure_ok] at hfirst hsecond ⊢
    obtain ⟨_, hvalid, -⟩ := hfirst
    obtain ⟨_, -, _, hvalid', -⟩ := hsecond
    exact ⟨_, _, hvalid, _, hvalid', rfl⟩
  refine ⟨assessment, hassess, (assess_issues hwriter hreader hassess).2 ⟨?_, ?_⟩⟩
  · exact UInt64.le_trans ((assess_issues hwriter hmiddle hfirst).1 hnone).1
      ((assess_issues hmiddle hreader hsecond).1 hnone').1
  · intro column hcolumn row hrow
    obtain ⟨target, -, hkeys, hvalues⟩ := evolveRow_assess hwriter hmiddle hfirst hnone hrow
    have hdelivers : Delivers writer middle row target := ⟨hkeys, hvalues⟩
    rw [← delivered_trans hmiddle hdelivers hkeeps hcolumn]
    exact ((assess_issues hmiddle hreader hsecond).1 hnone').2 column hcolumn target
      hdelivers.conforms

/-- Rows with the same values under the reader's names are put together as the same map. -/
theorem Delivers.unique {row row' target target' : Map}
    (h : Delivers writer reader row target) (h' : Delivers middle reader row' target')
    (hsorted : (target.map Prod.fst).Pairwise (· < ·))
    (hsorted' : (target'.map Prod.fst).Pairwise (· < ·))
    (hvalues : ∀ column ∈ reader.columns,
      delivered writer row column = delivered middle row' column) : target = target' := by
  have hkeys : target.map Prod.fst = target'.map Prod.fst :=
    (h.keys.trans h'.keys.symm).eq_of_pairwise (fun _ _ _ _ hlt hgt => absurd hgt (lt_asymm hlt))
      hsorted hsorted'
  refine Map.eq_of_get (hsorted.imp fun hlt => hlt.ne) hkeys ?_
  intro key hkey
  obtain ⟨column, hcolumn, rfl⟩ := List.mem_map.1 (h.keys.mem_iff.1 hkey)
  rw [(h.values column hcolumn).1, (h'.values column hcolumn).1, hvalues column hcolumn]

theorem targets_unique {rows rows' targets targets' : List Map}
    (h : List.Forall₂ (Delivers writer reader) rows targets)
    (h' : List.Forall₂ (Delivers middle reader) rows' targets')
    (hsorted : ∀ target ∈ targets, (target.map Prod.fst).Pairwise (· < ·))
    (hsorted' : ∀ target ∈ targets', (target.map Prod.fst).Pairwise (· < ·))
    (hvalues : List.Forall₂ (fun row row' => ∀ column ∈ reader.columns,
      delivered writer row column = delivered middle row' column) rows rows') :
    targets = targets' := by
  induction hvalues generalizing targets targets' with
  | nil =>
      cases h
      cases h'
      rfl
  | cons hfirst _ ih =>
      cases h with
      | cons h hrest =>
          cases h' with
          | cons h' hrest' =>
              obtain ⟨hs, hsorted⟩ := List.forall_mem_cons.1 hsorted
              obtain ⟨hs', hsorted'⟩ := List.forall_mem_cons.1 hsorted'
              rw [h.unique h' hs hs' hfirst, ih hrest hrest' hsorted hsorted']

/-! ### The rows of the new file -/

/-- A row as the decoders of a revision render it. -/
def renderedRow (revision : SchemaRevision) (row : Map) : Map :=
  revision.physicalSchema.columns.map fun column => (column.name, valueOf column row)

/-- What is delivered has the same members as the row that is rendered of what is read of it. -/
theorem Delivers.perm {row target object : Map} (h : Delivers writer middle row target)
    (hmiddle : middle.Valid) (hsame : ∀ key, object.get key = target.get key) :
    target.Perm (renderedRow middle object) := by
  have hrow : renderedRow middle object =
      (middle.columns.map (·.name)).map fun key => (key, (target.get key).getD .null) := by
    rw [renderedRow, SchemaRevision.physicalSchema, List.map_map, List.map_map]
    refine List.map_congr_left ?_
    intro column _
    rw [Function.comp_apply, Function.comp_apply, valueOf, hsame]
  rw [hrow]
  exact (List.Perm.of_eq (Map.eq_keys (h.nodup hmiddle)).symm).trans (h.keys.map _)

/-- The rows that are rendered of what is read again, under the names of their revision. -/
theorem forall₂_renderedRow (hmiddle : middle.Valid) (hkeeps : Keeps writer middle reader)
    {rows targets objects : List Map} (h : List.Forall₂ (Delivers writer middle) rows targets)
    (hsame : List.Forall₂ (fun target (object : Map) => ∀ key, object.get key = target.get key)
      targets objects) :
    List.Forall₂ (fun row row' => ((row'.map Prod.fst).Nodup ∧ (∀ member ∈ row', Plain member.2) ∧
      Conforms middle.columns row') ∧ ∀ column ∈ reader.columns,
        delivered writer row column = delivered middle row' column) rows
      (objects.map (renderedRow middle)) := by
  induction h generalizing objects with
  | nil =>
      cases hsame
      exact .nil
  | @cons row target rows targets hfirst _ ih =>
      cases hsame with
      | cons hget hrest =>
          have hperm := hfirst.perm hmiddle hget
          have hvalues := Map.get_perm (hfirst.nodup hmiddle) hperm
          refine .cons ⟨⟨?_, ?_, ?_⟩, ?_⟩ (ih hrest)
          · exact (hperm.map Prod.fst).nodup_iff.1 (hfirst.nodup hmiddle)
          · exact fun member hmember => hfirst.plain hmiddle member (hperm.mem_iff.2 hmember)
          · intro column hcolumn
            rw [hvalues]
            exact hfirst.conforms column hcolumn
          · intro column hcolumn
            rw [delivered_congr hvalues, delivered_trans hmiddle hfirst hkeeps hcolumn]

end

section

variable [SerdeJson] {writer middle reader : SchemaRevision}

theorem objectLines_cons (row : Map) (rows : List Map) :
    objectLines (row :: rows) = rowLine row ++ objectLines rows := by
  rw [objectLines, List.map_cons, String.join_cons]
  rfl

/-- The rows that a reader gets are read back, up to the order of the members. -/
theorem parse_delivered (hline : OneLine) (hread : ReadsBack) (hmiddle : middle.Valid)
    {targets : List Map} (h : ∀ target ∈ targets, ∃ row, Delivers writer middle row target) :
    ∃ objects, parseRows (objectLines targets) = .ok objects ∧
      List.Forall₂ (fun target (object : Map) => ∀ key, object.get key = target.get key) targets
        objects := by
  refine parseRows_plain hline hread ?_ ?_
  · intro target htarget
    obtain ⟨row, hrow⟩ := h target htarget
    exact hrow.nodup hmiddle
  · intro target htarget
    obtain ⟨row, hrow⟩ := h target htarget
    exact hrow.plain hmiddle

/-- The rows that a reader gets are as long as the decoders of its revision render them. -/
theorem keepsSize_targets (hline : OneLine) (hread : ReadsBack) (hmiddle : middle.Valid)
    {rows targets : List Map} (h : List.Forall₂ (Delivers writer middle) rows targets) :
    KeepsSize middle.physicalSchema targets := by
  intro part hpart hnodup objects hobjects
  have hdelivers : ∀ target ∈ part, ∃ row, Delivers writer middle row target := by
    intro target htarget
    obtain ⟨row, -, hrow⟩ := exists_of_forall₂_mem_right h (hpart.mem htarget)
    exact ⟨row, hrow⟩
  rw [join_rowLine] at hobjects ⊢
  obtain ⟨objects', hobjects', hsame⟩ := parse_delivered hline hread hmiddle hdelivers
  rw [hobjects, Except.ok.injEq] at hobjects'
  subst hobjects'
  rw [renderRows_eq]
  clear hpart hnodup hobjects
  induction hsame with
  | nil => rfl
  | @cons target object part objects hget _ ih =>
      obtain ⟨⟨row, hfirst⟩, hrest⟩ := List.forall_mem_cons.1 hdelivers
      have hsize : (renderObject target).utf8ByteSize =
          (renderObject (renderedRow middle object)).utf8ByteSize :=
        utf8ByteSize_renderObject_perm (hfirst.perm hmiddle hget)
      rw [List.map_cons, objectLines_cons, objectLines_cons, rowLine, rowLine,
        String.utf8ByteSize_append, String.utf8ByteSize_append, String.utf8ByteSize_append,
        String.utf8ByteSize_append, ih hrest, hsize]
      rfl

/-- A map is printed as an object with its members. -/
structure PrintsMembers : Prop where
  object : ∀ members : Map, (members.map Prod.fst).Pairwise (· < ·) →
    (∀ member ∈ members, Plain member.2) →
      SerdeJson.display (.object members) = renderObject members

/-- The text that a reader gets is the text of its rows. -/
theorem join_renderMap (hprints : PrintsMembers) (hmiddle : middle.Valid) {rows targets : List Map}
    (h : List.Forall₂ (Delivers writer middle) rows targets)
    (hsorted : ∀ target ∈ targets, (target.map Prod.fst).Pairwise (· < ·)) :
    String.join (targets.map fun row => renderMap row ++ "\n") = objectLines targets := by
  rw [objectLines]
  congr 1
  refine List.map_congr_left ?_
  intro target htarget
  obtain ⟨row, -, hdelivers⟩ := exists_of_forall₂_mem_right h htarget
  rw [renderMap, hprints.object target (hsorted target htarget) (hdelivers.plain hmiddle)]

end

/-! ### Upgrades -/

/-- A file, and the revision that it is written under. -/
structure RevisedFile where
  data : List UInt8
  revision : SchemaRevision

/-- The file as its decoders take it. -/
def RevisedFile.stored (file : RevisedFile) : StoredFile :=
  ⟨file.data, file.revision.physicalSchema⟩

section

variable [SerdeJson] [Crc32Fast] [Blake3] {reader : SchemaRevision} {file file' : RevisedFile}

/-- One upgrade: a file is read under another revision, and what is read is encoded under that one
in a columnar format.  A later reader does not miss anything. -/
structure Upgraded (reader : SchemaRevision) (file file' : RevisedFile) : Prop where
  fits : Fits file.data
  fits' : Fits file'.data
  text : ∃ text, decodeJsonl file.data file.revision file'.revision = .ok text ∧
    Encodes text file'.stored
  columnar : Storage.detect file'.data ≠ .ok .v1
  keeps : Keeps file.revision file'.revision reader

omit [Blake3] in
/-- What an encoded text decodes to, if it is the text of what a reader gets. -/
theorem exists_decoded (hline : OneLine) (hread : ReadsBack) {writer : SchemaRevision}
    (hvalid : file.revision.Valid) {rows targets : List Map}
    (h : List.Forall₂ (Delivers writer file.revision) rows targets)
    (hencode : Encodes (objectLines targets) file.stored) (hfit : Fits file.data)
    (hcolumnar : Storage.detect file.data ≠ .ok .v1) :
    ∃ objects : List Map,
      List.Forall₂ (fun target (object : Map) => ∀ key, object.get key = target.get key) targets
        objects ∧
      decodePhysical file.data file.revision.physicalSchema =
        .ok (objectLines (objects.map (renderedRow file.revision))) := by
  have hkept := keepsSize_targets hline hread hvalid h
  obtain ⟨objects, hobjects, -, hdecode⟩ := hencode.decoded hline hfit hkept
  obtain ⟨objects', hobjects', hsame⟩ := parse_delivered hline hread hvalid
    fun target htarget => (exists_of_forall₂_mem_right h htarget).imp fun _ h => h.2
  rw [hobjects, Except.ok.injEq] at hobjects'
  subst hobjects'
  refine ⟨objects, hsame, ?_⟩
  rcases hdecode with hdecode | hdecode
  · exact absurd (detect_frame hfit hdecode) hcolumnar
  · rw [renderRows_eq] at hdecode
    exact hdecode

/-- **One upgrade does not change what a later reader gets.** -/
theorem Upgraded.reads (h : Upgraded reader file file') (hline : OneLine) (hread : ReadsBack)
    (hprints : PrintsMembers) (hcompatible : Compatible file'.revision reader) :
    ∃ output, decodeJsonl file'.data file'.revision reader = .ok output ∧
      decodeJsonl file.data file.revision reader = .ok output := by
  obtain ⟨text, hdecode, hencode⟩ := h.text
  obtain ⟨first, hfirst, hnone, old, hold, happly⟩ := decodeJsonl_ok.1 hdecode
  obtain ⟨assessment, hassess, hissues⟩ :=
    Compatible.trans ⟨first, hfirst, hnone⟩ hcompatible h.keeps
  obtain ⟨second, hsecond, hnone'⟩ := hcompatible
  obtain ⟨hwriter, hvalid⟩ := valid_of_assess hfirst
  obtain ⟨-, hreader⟩ := valid_of_assess hsecond
  obtain ⟨rows, middles, rfl, hrows, hconforms, hmiddles, hsorted, happly'⟩ :=
    exists_reading h.fits hline hread hfirst hnone hold
  -- the text that is encoded is the text of the rows that are put together
  rw [happly', Except.ok.injEq, join_renderMap hprints hvalid hmiddles hsorted] at happly
  subst happly
  obtain ⟨objects, hsame, hnew⟩ := exists_decoded hline hread hvalid hmiddles hencode h.fits'
    h.columnar
  -- the reader's plan, on the rows of the old file and on those of the new one
  have hrendered := forall₂_renderedRow hvalid h.keeps hmiddles hsame
  have hfacts : ∀ row' ∈ objects.map (renderedRow file'.revision), (row'.map Prod.fst).Nodup ∧
      (∀ member ∈ row', Plain member.2) ∧ Conforms file'.revision.columns row' := by
    intro row' hrow'
    obtain ⟨_, -, hrow, -⟩ := exists_of_forall₂_mem_right hrendered hrow'
    exact hrow
  obtain ⟨targets', hdelivers', hsorted', happly'⟩ := exists_applyActions hline hread hvalid hreader
    hsecond hnone' (fun row hrow => (hfacts row hrow).1) (fun row hrow => (hfacts row hrow).2.1)
    fun row hrow => (hfacts row hrow).2.2
  obtain ⟨targets, hdelivers, hsorted, happly⟩ := exists_applyActions hline hread hwriter hreader
    hassess hissues (fun row hrow => nodup_of_isRow (hrows row hrow) hwriter)
    (fun row hrow => (hrows row hrow).plain) hconforms
  obtain rfl := targets_unique hdelivers hdelivers' hsorted hsorted'
    (hrendered.imp fun _ _ h => h.2)
  exact ⟨_, decodeJsonl_ok.2 ⟨second, hsecond, hnone', _, hnew, happly'⟩,
    decodeJsonl_ok.2 ⟨assessment, hassess, hissues, _, hold, happly⟩⟩

/-- **Upgrades do not change what a later reader gets.**  A file goes through any number of
upgrades.  A later reader of the last file gets what it gets of the first one. -/
theorem decodeJsonl_upgraded (hline : OneLine) (hread : ReadsBack) (hprints : PrintsMembers)
    (h : Relation.TransGen (Upgraded reader) file file')
    (hcompatible : Compatible file'.revision reader) :
    ∃ output, decodeJsonl file'.data file'.revision reader = .ok output ∧
      decodeJsonl file.data file.revision reader = .ok output := by
  induction h using Relation.TransGen.head_induction_on with
  | single hstep => exact hstep.reads hline hread hprints hcompatible
  | head hstep _ ih =>
      obtain ⟨output, hlast, hnext⟩ := ih
      obtain ⟨assessment, hassess, hissues, -⟩ := decodeJsonl_ok.1 hnext
      obtain ⟨output', hnext', hfile⟩ :=
        hstep.reads hline hread hprints ⟨assessment, hassess, hissues⟩
      rw [hnext, Except.ok.injEq] at hnext'
      subst hnext'
      exact ⟨output, hlast, hfile⟩

end

open scoped CompactCore.Reference.Json

theorem printsMembers_reference : PrintsMembers where
  object := by
    intro members _ hplain
    have hdisplay : ∀ member ∈ members,
        Reference.Json.display member.2 = Reference.printValue member.2 :=
      fun member hmember => Reference.Json.display_plain (hplain member hmember)
    change @renderObject ⟨Reference.Json.fromStr, Reference.printString,
      Reference.printValue⟩ members = renderObject members
    refine congrArg (· ++ "\x7d") (List.foldl_ext _ _ _ ?_)
    rintro out ⟨member, i⟩ hmember
    have hvalue : SerdeJson.display member.2 = Reference.printValue member.2 :=
      hdisplay member (List.fst_mem_of_mem_zipIdx hmember)
    rw [hvalue]
    rfl

/-- A revision after the two of before, in which both columns have other names. -/
def relabelled : SchemaRevision :=
  ⟨3, [⟨2, "label", .string, .stored, true, [], some (.string "none")⟩,
    ⟨1, "value", .u64, .stored, false, [], none⟩]⟩

/-- Two rows under the second revision. -/
def renamedLines : String :=
  "\x7b\"name\":\"none\",\"number\":1\x7d\n\x7b\"name\":\"none\",\"number\":2\x7d\n"

set_option maxRecDepth 8192 in
/-- Two rows, read under the second revision, encoded again, and read under the third one. -/
theorem decodeJsonl_upgraded_relabelled : ∃ data data' output,
    Io.V3.encodeJsonl Reference.idLines renamed.1.physicalSchema = .ok data ∧
      decodeJsonl data renamed.1 renamed.2 = .ok renamedLines ∧
      Io.V3.encodeJsonl renamedLines renamed.2.physicalSchema = .ok data' ∧
      decodeJsonl data' renamed.2 relabelled = .ok output ∧
      decodeJsonl data renamed.1 relabelled = .ok output := by
  obtain ⟨data, hencode, hfit, hdecode⟩ := Reference.exists_ok
    (x := Io.V3.encodeJsonl Reference.idLines renamed.1.physicalSchema)
    (fun data => Fits data ∧ decodeJsonl data renamed.1 renamed.2 = .ok renamedLines)
    (by decide +kernel)
  obtain ⟨data', hencode', hfit', hcolumnar⟩ := Reference.exists_ok
    (x := Io.V3.encodeJsonl renamedLines renamed.2.physicalSchema)
    (fun data => Fits data ∧ Storage.detect data ≠ .ok .v1) (by decide +kernel)
  have hlimits : ∀ rows, parseRows renamedLines = .ok rows →
      Io.V3.WithinLimits renamed.2.physicalSchema.columns rows := by
    intro rows hrows
    obtain ⟨rows', hrows', hlen, hstrings⟩ := Reference.exists_ok
      (x := parseRows renamedLines) (fun rows => rows.length ≤ maxDecodedValues ∧
        ∀ column ∈ renamed.2.physicalSchema.columns,
          ((columnStrings column rows).flatMap Strings.lenPrefixed).length ≤ maxDecodedBytes)
      (by decide +kernel)
    rw [hrows', Except.ok.injEq] at hrows
    subst hrows
    exact ⟨hlen, by decide, fun column hcolumn _ _ _ => hstrings column hcolumn⟩
  -- the new column is filled in as the last revision would
  have hkeeps : Keeps renamed.1 renamed.2 relabelled := by
    intro column hcolumn
    rcases List.mem_cons.1 hcolumn with rfl | hcolumn
    · rfl
    · obtain rfl := List.mem_singleton.1 hcolumn
      exact trivial
  have hupgraded : Upgraded relabelled ⟨data, renamed.1⟩ ⟨data', renamed.2⟩ :=
    ⟨hfit, hfit', ⟨renamedLines, hdecode, .columns hencode' hlimits⟩, hcolumnar, hkeeps⟩
  obtain ⟨output, hlast, hfirst⟩ := decodeJsonl_upgraded Reference.Json.oneLine
    Reference.Json.readsBack printsMembers_reference (.single hupgraded) ⟨_, rfl, rfl⟩
  exact ⟨data, data', output, hencode, hdecode, hencode', hlast, hfirst⟩

end Evolution

end CompactCore
