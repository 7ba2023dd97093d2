/-
**Rows of JSON objects.**

Every format of the crate stores rows: JSON objects, one to a line of a JSONL text.  This module
reads the rows off a text and says how rows are rendered again: restricted to the columns of a
schema, in schema order, with `null` for a member that is missing.

Main definitions:

* `CompactCore.Io.parseRows` — the rows of a text;
* `CompactCore.Io.valueOf` — the value of a row in a column;
* `CompactCore.renderObject`, `CompactCore.Io.renderRow`, `CompactCore.Io.renderRows` — rendering;
* `CompactCore.Io.columnStrings` — the strings of one column.

Main results:

* `CompactCore.Io.foldl_render`, `CompactCore.Io.foldlM_render` — the rendering loops of the
  decoders produce rendered rows.
-/

import CompactCore.Codecs.Strings
import CompactCore.Schema

set_option relaxedAutoImplicit false
set_option autoImplicit false

namespace CompactCore

/-! ### Rendering JSON objects -/

/-- The loop that renders an object, one member after the other. -/
def renderObject [SerdeJson] (members : List (String × Value)) : String :=
  let out := members.zipIdx.foldl
    (fun out member =>
      (if 0 < member.2 then out ++ "," else out) ++ SerdeJson.toString member.1.1 ++ ":" ++
        SerdeJson.display member.1.2)
    "\x7b"
  out ++ "\x7d"

namespace Io

open Wire CompactError

/-! ### Parsing -/

def parseJsonlObject [SerdeJson] (line : String) : Result Map := do
  let value ← okOr (invalidInput "invalid jsonl") (SerdeJson.fromStr line)
  okOr (invalidInput "jsonl row must be an object") value.asObject

/-- The rows of a JSONL text: its lines that are not blank, parsed. -/
def parseRows [SerdeJson] (input : String) : Result (List Map) :=
  ((lines input).filter fun line => !isBlank line).mapM parseJsonlObject

/-! ### Rendering rows -/

/-- The value of a row under the name of a column, or null where it has none. -/
def valueOf (column : ColumnSchema) (row : Map) : Value := (row.get column.name).getD .null

/-- A row restricted to the columns of a schema, in schema order. -/
def renderRow [SerdeJson] (columns : List ColumnSchema) (row : Map) : String :=
  renderObject (columns.map fun column => (column.name, valueOf column row))

/-- Rows as JSONL, one object to a line. -/
def renderRows [SerdeJson] (columns : List ColumnSchema) (rows : List Map) : String :=
  String.join (rows.map fun row => renderRow columns row ++ "\n")

/-- The loop that renders rows joins their lines. -/
theorem foldl_render {f : ℕ → String} {g : Map → String} {rows : List Map}
    (h : ∀ i (hi : i < rows.length), f i = g rows[i]) :
    (List.range rows.length).foldl (fun out i => out ++ f i ++ "\n") "" =
      String.join (rows.map fun row => g row ++ "\n") := by
  have hmap : rows.map (fun row => g row ++ "\n") =
      (List.range rows.length).map fun i => f i ++ "\n" := by
    refine List.ext_getElem (by simp) fun i hi _ => ?_
    rw [List.getElem_map, List.getElem_map, List.getElem_range, h i (by simpa using hi)]
  rw [hmap, String.join, List.foldl_map]
  simp only [String.append_assoc]

/-- A loop that appends a line for some of its elements. -/
theorem foldlM_render {α : Type} {f : String → α → Result String} (test : α → Bool)
    (line : α → String) {xs : List α} (h : ∀ out, ∀ x ∈ xs, f out x =
      .ok (if test x then out ++ line x ++ "\n" else out)) (out : String) :
    xs.foldlM f out =
      .ok (out ++ String.join ((xs.filter test).map fun x => line x ++ "\n")) := by
  induction xs generalizing out with
  | nil => simp
  | cons x xs ih =>
      rw [List.foldlM_cons, h out x List.mem_cons_self]
      simp only [bind, Except.bind]
      rw [ih fun out x hx => h out x (List.mem_cons_of_mem _ hx), List.filter_cons]
      cases test x
      · rfl
      · simp [String.append_assoc]

theorem renderRows_append [SerdeJson] (columns : List ColumnSchema) (rows rows' : List Map) :
    renderRows columns (rows ++ rows') = renderRows columns rows ++ renderRows columns rows' := by
  rw [renderRows, List.map_append]
  exact String.join_append ..

/-! ### Values of a column -/

/-- The strings that the rows have under the name of a column. -/
def columnStrings (column : ColumnSchema) (rows : List Map) : List String :=
  rows.filterMap fun row => (row.get column.name).bind Value.asStr

end Io

end CompactCore
