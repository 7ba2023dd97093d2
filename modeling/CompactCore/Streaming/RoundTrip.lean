/-
**The round trip of streams.**

An encoded stream holds the rows of its input, but it does not always decode: a block records how
many bytes its lines have, and the reader compares this with the text that it renders.  So a stream
reads back precisely when, block by block, the lines that were written are as long as the rows
rendered.

Main definitions:

* `CompactCore.Streaming.OneLine` — what is assumed of `serde_json`;
* `CompactCore.Streaming.RawSizeKept` — the lines of a row group are as long as its rows rendered.

Main results:

* `CompactCore.Streaming.decodeBlock_encoded` — what a block decodes to;
* `CompactCore.Streaming.decodeJsonlStream_encodeJsonlStream` — **when an encoded stream reads
  back**.
-/

import CompactCore.Reference
import CompactCore.Streaming.Reader
import CompactCore.Streaming.Writer

set_option relaxedAutoImplicit false
set_option autoImplicit false

namespace CompactCore.Streaming

open Wire CompactError Io

section

variable [SerdeJson]

/-! ### Rendered rows are lines -/

/-- `serde_json` prints a string, and a value without indentation, on one line. -/
structure OneLine : Prop where
  toString : ∀ s, '\n' ∉ (SerdeJson.toString s).toList
  display : ∀ value, '\n' ∉ (SerdeJson.display value).toList

theorem OneLine.renderObject (h : OneLine) (members : List (String × Value)) :
    '\n' ∉ (renderObject members).toList := by
  have hfold : ∀ (members : List ((String × Value) × ℕ)) (out : String), '\n' ∉ out.toList →
      '\n' ∉ (members.foldl (fun out member =>
        (if 0 < member.2 then out ++ "," else out) ++ SerdeJson.toString member.1.1 ++ ":" ++
          SerdeJson.display member.1.2) out).toList := by
    intro members
    induction members with
    | nil =>
        intro out hout
        exact hout
    | cons member members ih =>
        intro out hout
        refine ih _ ?_
        have hname := h.toString member.1.1
        have hvalue := h.display member.1.2
        dsimp only
        split <;> simp [hout, hname, hvalue]
  rw [CompactCore.renderObject, String.toList_append, List.mem_append, not_or]
  exact ⟨hfold _ _ (by decide), by decide⟩

/-- Objects, one to a line. -/
def objectLines (objects : List (List (String × Value))) : String :=
  String.join (objects.map fun members => CompactCore.renderObject members ++ "\n")

theorem lines_objectLines (h : OneLine) (objects : List (List (String × Value))) :
    lines (objectLines objects) = objects.map CompactCore.renderObject := by
  induction objects with
  | nil => rfl
  | cons members objects ih =>
      have hlast : (CompactCore.renderObject members).toList.getLast? ≠ some '\r' := by
        rw [CompactCore.renderObject, String.toList_append]
        simp
      rw [objectLines, List.map_cons, String.join_cons,
        lines_append_line (h.renderObject members) hlast, List.map_cons, ← ih]
      rfl

/-- The reader counts every rendered object. -/
theorem countJsonlRows_objectLines (h : OneLine) (objects : List (List (String × Value))) :
    countJsonlRows (objectLines objects) = objects.length := by
  have hkeep : ∀ line ∈ objects.map CompactCore.renderObject, (!isBlank line) = true := by
    intro line hline
    obtain ⟨members, _, rfl⟩ := List.mem_map.1 hline
    rw [CompactCore.renderObject, isBlank_append]
    simp [isBlank, isWhitespace]
  rw [countJsonlRows, lines_objectLines h, List.filter_eq_self.2 hkeep, List.length_map]

theorem objectLines_append (objects objects' : List (List (String × Value))) :
    objectLines (objects ++ objects') = objectLines objects ++ objectLines objects' := by
  rw [objectLines, List.map_append]
  exact String.join_append ..

/-- Rendered rows are objects, one to a line. -/
theorem renderRows_eq (columns : List ColumnSchema) (rows : List Map) :
    renderRows columns rows = objectLines (rows.map fun row =>
      columns.map fun column => (column.name, valueOf column row)) := by
  rw [renderRows, objectLines, List.map_map]
  rfl

/-- The reader counts every rendered row. -/
theorem countJsonlRows_renderRows (h : OneLine) (columns : List ColumnSchema) (rows : List Map) :
    countJsonlRows (renderRows columns rows) = rows.length := by
  rw [renderRows_eq, countJsonlRows_objectLines h, List.length_map]

/-! ### What an encoded block decodes to -/

/-- The payload of the block of a row group is not larger than the readers take. -/
def PayloadWithin (schema : Schema) (rows : List String) : Prop :=
  ∀ group, encodeJsonlRowGroup (String.join rows) schema = .ok group →
    blockHeaderLen + group.payload.length ≤ maxEncodedBlockBytes

/-- The run-length encoded columns of a row group are not larger than the decoder takes. -/
def ColumnsWithin (schema : Schema) (rows : List String) : Prop :=
  ∀ objects, parseRows (String.join rows) = .ok objects → RleWithinLimit schema.columns objects

/-- Whatever a run gives has a property. -/
instance decidableForallOk {α : Type} (P : α → Prop) [DecidablePred P] :
    (x : Result α) → Decidable (∀ a, x = .ok a → P a)
  | .ok a => decidable_of_iff (P a) (by simp)
  | .error _ => isTrue (by simp)

instance (schema : Schema) (rows : List String) :
    Decidable (PayloadWithin schema rows) := decidableForallOk _ _

instance (schema : Schema) (rows : List String) :
    Decidable (ColumnsWithin schema rows) := decidableForallOk _ _

/-- A row group that is encoded within the limits of the decoders. -/
structure GroupLimits (schema : Schema) (rows : List String) : Prop where
  payload_le : ∀ group, encodeJsonlRowGroup (String.join rows) schema = .ok group →
    blockHeaderLen + group.payload.length ≤ maxEncodedBlockBytes
  rle : ∀ objects, parseRows (String.join rows) = .ok objects →
    RleWithinLimit schema.columns objects

instance (schema : Schema) (rows : List String) : Decidable (GroupLimits schema rows) :=
  decidable_of_iff (PayloadWithin schema rows ∧ ColumnsWithin schema rows)
    ⟨fun h => ⟨h.1, h.2⟩, fun h => ⟨h.1, h.2⟩⟩

/-- The lines of a row group are as long as its rows rendered. -/
def RawSizeKept (schema : Schema) (rows : List String) : Prop :=
  ∀ objects, parseRows (String.join rows) = .ok objects →
    (String.join rows).utf8ByteSize = (renderRows schema.columns objects).utf8ByteSize

instance (schema : Schema) (rows : List String) : Decidable (RawSizeKept schema rows) :=
  decidableForallOk _ _

variable [Crc32Fast] {schema : Schema} {old blocks : List Block}

/-- **What an encoded block decodes to**: its rows rendered, if its run-length encoded columns are
within the limit, and its rows as long as its lines. -/
theorem decodeBlock_encoded {rows : List String} {objects : List Map} {group : JsonlRowGroup}
    {block : Block} {text : String} (h : OneLine)
    (hencode : encodeJsonlRowGroup (String.join rows) schema = .ok group)
    (hobjects : parseRows (String.join rows) = .ok objects) (hblock : block.IsNext old group)
    (hmax : block.payload.length ≤ maxEncodedBlockBytes) :
    decodeBlock schema block.parsed = .ok text ↔
      (RleWithinLimit schema.columns objects ∧
        (String.join rows).utf8ByteSize = (renderRows schema.columns objects).utf8ByteSize) ∧
        text = renderRows schema.columns objects := by
  have hfit : Fits (Framing.encodeV1 .columnBlock group.payload) := by
    have hword : Framing.headerLen + maxEncodedBlockBytes < wordSize := by decide
    rw [Block.length_payload, hblock.columnBlock_eq] at hmax
    rw [Fits, Framing.length_encodeV1]
    omega
  obtain ⟨objects', _, _, _, hobjects', -, -, -, -, hgroup⟩ := encodeJsonlRowGroup_ok hencode
  rw [hobjects, Except.ok.injEq] at hobjects'
  subst hobjects'
  have hrows : block.parsed.rowCount = objects.length := by
    rw [hgroup] at hblock
    exact hblock.rowCount_eq
  have hraw : block.parsed.rawSize = (String.join rows).utf8ByteSize := by
    rw [hgroup] at hblock
    exact hblock.rawSize_eq
  have hcolumn : block.parsed.columnBlock = group.payload := hblock.columnBlock_eq
  simp only [decodeBlock, hcolumn, bind_ok, failIf_ok, not_not, hrows, hraw, length_asBytes,
    pure_ok, exists_const]
  constructor
  · rintro ⟨decoded, hdecode, -, hsize, rfl⟩
    have hrle := rleWithinLimit_of_decodeJsonl hencode hobjects hfit hdecode
    rw [decodeJsonl_encodeJsonlRowGroup hencode hobjects hfit hrle, Except.ok.injEq] at hdecode
    subst hdecode
    exact ⟨⟨hrle, hsize.symm⟩, rfl⟩
  · rintro ⟨⟨hrle, hsize⟩, rfl⟩
    have hdecode := decodeJsonl_encodeJsonlRowGroup hencode hobjects hfit hrle
    exact ⟨_, hdecode, countJsonlRows_renderRows h _ _, hsize.symm, rfl⟩

/-! ### What an encoded stream decodes to -/

/-- The object of a row, without its line feed. -/
def rowObject (row : String) : Result Map := parseJsonlObject (stripSuffix '\n' row)

omit [Crc32Fast] in
theorem parseRows_join {maxRowLen : ℕ} {rows : List String}
    (h : ∀ row ∈ rows, IsRow maxRowLen row) :
    parseRows (String.join rows) = rows.mapM rowObject := by
  rw [parseRows, filter_lines_join h, List.mapM_map]
  rfl

/-- A block holds the rows of a row group. -/
def Block.Holds (schema : Schema) (rows : List String) (block : Block) : Prop :=
  ∃ group done, encodeJsonlRowGroup (String.join rows) schema = .ok group ∧
    block.IsNext done group

omit [Crc32Fast] in
/-- The blocks of row groups, one by one. -/
theorem Encoded.forall₂ {groups : List (List String)} (h : Encoded schema old groups blocks) :
    List.Forall₂ (Block.Holds schema) groups blocks := by
  induction h with
  | nil => exact .nil
  | snoc _ hencode hnext ih => exact List.rel_append ih (.cons ⟨_, _, hencode, hnext⟩ .nil)

omit [Crc32Fast] in
/-- The rows of encoded row groups have been parsed. -/
theorem exists_objects {maxRowLen : ℕ} {groups : List (List String)}
    (hencoded : List.Forall₂ (Block.Holds schema) groups blocks)
    (hrows : ∀ rows ∈ groups, ∀ row ∈ rows, IsRow maxRowLen row) :
    ∃ objects, groups.flatten.mapM rowObject = .ok objects := by
  induction hencoded with
  | nil => exact ⟨[], rfl⟩
  | @cons rows block groups blocks hblock _ ih =>
      obtain ⟨group, done, hencode, -⟩ := hblock
      obtain ⟨objects, _, _, _, hobjects, _⟩ := encodeJsonlRowGroup_ok hencode
      obtain ⟨rest, hrest⟩ := ih fun g hg => hrows g (List.mem_cons_of_mem _ hg)
      rw [parseRows_join (hrows rows List.mem_cons_self)] at hobjects
      refine ⟨objects ++ rest, ?_⟩
      simp only [List.flatten_cons, List.mapM_append, hobjects, hrest, bind_ok, Except.ok.injEq,
        exists_eq_left', pure_ok]

omit [Crc32Fast] in
/-- Row groups within the limits have frames that the readers accept. -/
theorem payload_le_of_limits {groups : List (List String)}
    (hencoded : List.Forall₂ (Block.Holds schema) groups blocks)
    (hlimits : ∀ rows ∈ groups, GroupLimits schema rows) :
    ∀ block ∈ blocks, block.payload.length ≤ maxEncodedBlockBytes := by
  induction hencoded with
  | nil => simp
  | @cons rows block groups blocks hblock _ ih =>
      obtain ⟨group, done, hencode, hnext⟩ := hblock
      refine List.forall_mem_cons.2 ⟨?_, ih fun g hg => hlimits g (List.mem_cons_of_mem _ hg)⟩
      rw [Block.length_payload, hnext.columnBlock_eq]
      exact (hlimits rows List.mem_cons_self).payload_le group hencode

omit [Crc32Fast] in
/-- **Parts that decode to their rows, rendered, decode together to all rows, rendered.** -/
theorem exists_decoded {ι β : Type} {rows : ι → List String} {Cond : ι → Prop}
    {decode : β → Result String} {groups : List ι} {parts : List β}
    (h : List.Forall₂ (fun group part => ∃ objects, (rows group).mapM rowObject = .ok objects ∧
      ∀ text, decode part = .ok text ↔ Cond group ∧ text = renderRows schema.columns objects)
        groups parts) :
    ∃ objects, (groups.flatMap rows).mapM rowObject = .ok objects ∧
      ∀ text, String.join <$> parts.mapM decode = .ok text ↔
        (∀ group ∈ groups, Cond group) ∧ text = renderRows schema.columns objects := by
  induction h with
  | nil =>
      refine ⟨[], rfl, fun text => ?_⟩
      have hnil : renderRows schema.columns [] = "" := rfl
      simp only [hnil, List.mapM_nil, map_ok, pure_ok, exists_eq_left']
      exact ⟨fun h => ⟨List.forall_mem_nil _, h.symm⟩, fun h => h.2.symm⟩
  | @cons group part groups parts hfirst _ ih =>
      obtain ⟨objects, hobjects, hpart⟩ := hfirst
      obtain ⟨rest, hrest, hparts⟩ := ih
      refine ⟨objects ++ rest, ?_, fun text => ?_⟩
      · simp only [List.flatMap_cons, List.mapM_append, hobjects, hrest, bind_ok, Except.ok.injEq,
          exists_eq_left', pure_ok]
      · simp only [List.mapM_cons, map_ok, bind_ok, pure_ok] at hparts ⊢
        rw [List.forall_mem_cons, renderRows_append]
        constructor
        · rintro ⟨_, ⟨first, hdecode, texts, htexts, rfl⟩, rfl⟩
          obtain ⟨hcond, rfl⟩ := (hpart first).1 hdecode
          obtain ⟨hconds, hjoin⟩ := (hparts _).1 ⟨texts, htexts, rfl⟩
          exact ⟨⟨hcond, hconds⟩, by rw [String.join_cons, hjoin]⟩
        · rintro ⟨⟨hcond, hconds⟩, rfl⟩
          obtain ⟨texts, htexts, hjoin⟩ := (hparts _).2 ⟨hconds, rfl⟩
          exact ⟨_, ⟨_, (hpart _).2 ⟨hcond, rfl⟩, texts, htexts, rfl⟩, by
            rw [String.join_cons, hjoin]⟩

/-- **What the blocks of row groups decode to**: all rows, rendered, precisely when every row group
is within the limit of the run-length decoder and as long as its rows rendered. -/
theorem decodesTo_holds {maxRowLen : ℕ} {groups : List (List String)} (h : OneLine)
    (hencoded : List.Forall₂ (Block.Holds schema) groups blocks)
    (hrows : ∀ rows ∈ groups, ∀ row ∈ rows, IsRow maxRowLen row)
    (hmax : ∀ block ∈ blocks, block.payload.length ≤ maxEncodedBlockBytes) :
    ∃ objects, groups.flatten.mapM rowObject = .ok objects ∧
      ((∃ texts, DecodesTo schema blocks texts) ↔
        ∀ rows ∈ groups, ColumnsWithin schema rows ∧ RawSizeKept schema rows) ∧
      ∀ texts, DecodesTo schema blocks texts →
        texts.flatMap asBytes = asBytes (renderRows schema.columns objects) := by
  have hparts : List.Forall₂ (fun rows (block : Block) => ∃ objects,
      (id rows : List String).mapM rowObject = .ok objects ∧
        ∀ text, decodeBlock schema block.parsed = .ok text ↔
          (ColumnsWithin schema rows ∧ RawSizeKept schema rows) ∧
            text = renderRows schema.columns objects) groups blocks := by
    refine (List.forall₂_iff_get.2 ⟨hencoded.length_eq, fun i hi hi' => ?_⟩)
    obtain ⟨group, done, hencode, hnext⟩ := (List.forall₂_iff_get.1 hencoded).2 i hi hi'
    have hmem := List.get_mem groups ⟨i, hi⟩
    obtain ⟨objects, _, _, _, hobjects, _⟩ := encodeJsonlRowGroup_ok hencode
    refine ⟨objects, (parseRows_join (hrows _ hmem)).symm.trans hobjects, fun text => ?_⟩
    rw [decodeBlock_encoded h hencode hobjects hnext (hmax _ (List.get_mem blocks ⟨i, hi'⟩)),
      ColumnsWithin, RawSizeKept, hobjects]
    simp
  obtain ⟨objects, hobjects, htexts⟩ := exists_decoded hparts
  rw [List.flatMap_id] at hobjects
  have hdecodes (texts : List String) : DecodesTo schema blocks texts ↔
      blocks.mapM (fun block : Block => decodeBlock schema block.parsed) = .ok texts := mapM_ok.symm
  simp only [map_ok] at htexts
  refine ⟨objects, hobjects, ?_, fun texts hall => ?_⟩
  · simp only [hdecodes]
    constructor
    · rintro ⟨texts, hall⟩
      exact ((htexts _).1 ⟨texts, hall, rfl⟩).1
    · intro hkept
      obtain ⟨texts, hall, -⟩ := (htexts _).2 ⟨hkept, rfl⟩
      exact ⟨texts, hall⟩
  · rw [← asBytes_join, ((htexts _).1 ⟨texts, (hdecodes texts).1 hall, rfl⟩).2]

/-- What the blocks of row groups decode to that are within the limits of the decoders. -/
theorem decodesTo_encoded {maxRowLen : ℕ} {groups : List (List String)} (h : OneLine)
    (hencoded : List.Forall₂ (Block.Holds schema) groups blocks)
    (hrows : ∀ rows ∈ groups, ∀ row ∈ rows, IsRow maxRowLen row)
    (hlimits : ∀ rows ∈ groups, GroupLimits schema rows) :
    ∃ objects, groups.flatten.mapM rowObject = .ok objects ∧
      ((∃ texts, DecodesTo schema blocks texts) ↔ ∀ rows ∈ groups, RawSizeKept schema rows) ∧
      ∀ texts, DecodesTo schema blocks texts →
        texts.flatMap asBytes = asBytes (renderRows schema.columns objects) := by
  obtain ⟨objects, hobjects, hdecodes, htexts⟩ :=
    decodesTo_holds h hencoded hrows (payload_le_of_limits hencoded hlimits)
  refine ⟨objects, hobjects, hdecodes.trans ?_, htexts⟩
  exact forall₂_congr fun rows hmem => and_iff_right (hlimits rows hmem).rle

/-- **When an encoded stream reads back.**  Within the limits of the decoders, a stream decodes to
the rows of its input, rendered, precisely when the lines of every row group are as long as its rows
rendered. -/
theorem decodeJsonlStream_encodeJsonlStream {input : BufRead} {stream : List UInt8}
    {options : BlockOptions} (h : OneLine) (hfit : Fits stream)
    (hencode : encodeJsonlStream input [] schema options = .ok stream) :
    ∃ lines rows objects, InputLines options.maxUncompressedBytesPerBlock input.bytes lines ∧
      acceptLines options.maxUncompressedBytesPerBlock lines = .ok rows ∧
      rows.mapM rowObject = .ok objects ∧
      ((∀ group ∈ cutRows options rows, GroupLimits schema group) →
        (decodeJsonlStream stream schema = .ok (asBytes (renderRows schema.columns objects)) ↔
          ∀ group ∈ cutRows options rows, RawSizeKept schema group)) := by
  obtain ⟨lines, rows, blocks, hinput, hrows, hencoded, hcount, hrowCount, -, rfl⟩ :=
    encodeJsonlStream_ok hencode
  have hgroups := isRow_of_cutRows options hrows
  obtain ⟨objects, hobjects⟩ := exists_objects hencoded.forall₂ hgroups
  rw [flatten_cutRows] at hobjects
  refine ⟨lines, rows, objects, hinput, hrows, hobjects, fun hlimits => ?_⟩
  obtain ⟨objects', hobjects', hdecodes, htexts⟩ :=
    decodesTo_encoded h hencoded.forall₂ hgroups hlimits
  rw [flatten_cutRows, hobjects] at hobjects'
  cases hobjects'
  have hstream :
      Stream ([] ++ (writeStreamHeader ++ (blockLog.flat blocks ++ footerOf blocks true)))
      blocks true :=
    ⟨hencoded.chain (payload_le_of_limits hencoded.forall₂ hlimits), rfl, fun _ => hcount⟩
  rw [← hdecodes, decodeJsonlStream_ok hfit]
  constructor
  · intro hdecode
    obtain ⟨blocks', texts, hstream', -, htexts', -⟩ := hdecode
    rw [LogFormat.complete_unique (hstream'.complete hfit) (hstream.complete hfit)] at htexts'
    exact ⟨texts, htexts'⟩
  · intro hdecode
    obtain ⟨texts, htexts'⟩ := hdecode
    exact ⟨blocks, texts, hstream, hrowCount, htexts', (htexts texts htexts').symm⟩

end

open scoped CompactCore.Reference

theorem oneLine_reference : OneLine where
  toString := Reference.printString_oneLine
  display := Reference.printValue_oneLine

/-- A line with a space in it. -/
def spacedInput : BufRead := ⟨[asBytes "\x7b\"id\": 1\x7d\n"], by decide +kernel⟩

set_option maxRecDepth 4096 in
/-- A stream of that line is written, but not read back. -/
theorem decodeJsonlStream_spaced : ∃ stream,
    encodeJsonlStream spacedInput [] (Reference.idSchema .deltaVarintU64) ⟨8, 64⟩ = .ok stream ∧
      decodeJsonlStream stream (Reference.idSchema .deltaVarintU64) =
        .error (.invalidInput "decoded block raw size does not match metadata") :=
  Reference.exists_ok _ (by decide +kernel)

set_option maxRecDepth 4096 in
/-- The rows of the small table, in a block each, are read back. -/
theorem decodeJsonlStream_encodeJsonlStream_id_rows : ∃ stream,
    encodeJsonlStream idInput [] (Reference.idSchema .deltaVarintU64) ⟨1, 64⟩ = .ok stream ∧
      decodeJsonlStream stream (Reference.idSchema .deltaVarintU64) =
        .ok (asBytes Reference.idLines) := by
  obtain ⟨stream, hencode, hfit⟩ := Reference.exists_ok
    (x := encodeJsonlStream idInput [] (Reference.idSchema .deltaVarintU64) ⟨1, 64⟩) Fits
    (by decide +kernel)
  obtain ⟨lines, rows, objects, hlines, hrows, hobjects, hiff⟩ :=
    decodeJsonlStream_encodeJsonlStream oneLine_reference hfit hencode
  rw [idInput_lines hlines] at hrows
  obtain rfl : idRows = rows := Except.ok.inj hrows
  obtain rfl : Reference.idRows = objects := Except.ok.inj hobjects
  have hlimits : ∀ group ∈ cutRows ⟨1, 64⟩ idRows,
      GroupLimits (Reference.idSchema .deltaVarintU64) group := by decide +kernel
  have hkept : ∀ group ∈ cutRows ⟨1, 64⟩ idRows,
      RawSizeKept (Reference.idSchema .deltaVarintU64) group := by decide +kernel
  exact ⟨stream, hencode, (hiff hlimits).2 hkept⟩

end CompactCore.Streaming
