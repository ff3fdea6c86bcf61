import LaunchOptions.Toml.Key
import LaunchOptions.Toml.Marked
import LaunchOptions.Toml.Table

/-!
# TOML documents

A document is a sequence of lines: headers of tables and assignments of values to keys.

Specification: `SPEC_FULL.md`, section 4.6 (settings files).
-/

namespace LaunchOptions.Toml

/-- Read on in an array, up to and with its closing bracket. An item is followed by a comma or by
the end. -/
def arrayFrom (item : Read Value) (items : List Value) (t : Text) : Option (Value × Text) :=
  match skipSpace t with
  | ']' :: rest => some (.array items, rest)
  | inner =>
    match item inner with
    | none => none
    | some (v, rest) =>
      match skipSpace rest with
      | ']' :: rest => some (.array (items ++ [v]), rest)
      | ',' :: rest =>
        if rest.length < t.length then arrayFrom item (items ++ [v]) rest else none
      | _ => none
termination_by t.length

/-- Read an assignment: a path of keys, `=` and a value. -/
def assignment? (item : Read Value) (t : Text) : Option ((List Text × Value) × Text) := do
  let (path, rest) ← keyPath? t
  match rest with
  | '=' :: rest =>
    let (v, rest) ← item (skipBlanks rest)
    return ((path, v), rest)
  | _ => none

/-- Read on in an inline table, up to and with its closing brace. It stays on its line, and no comma
stands before the end. -/
def inlineTableFrom (item : Read Value) (entries : Entries) (t : Text) : Option (Value × Text) :=
  match assignment? item t with
  | none => none
  | some ((path, v), rest) =>
    match Entries.assign path v .header entries, skipBlanks rest with
    | some entries, '}' :: rest => some (.table (Item.toValues entries), rest)
    | some entries, ',' :: rest =>
      if rest.length < t.length then inlineTableFrom item entries rest else none
    | _, _ => none
termination_by t.length

/-- How deep arrays and inline tables may be nested. -/
def maxDepth : Nat := 79

/-- Read a number, a moment or a boolean. -/
def scalar? (t : Text) : Option (Value × Text) :=
  ((moment? .literal t).map fun (m, rest) ↦ (.moment m, rest)).or <|
  ((float? t).map fun (written, rest) ↦ (.float written, rest)).or <|
  ((integer? t).map fun (n, rest) ↦ (.integer n, rest)).or <|
  (boolean? t).map fun (b, rest) ↦ (.boolean b, rest)

/-- Read a value in which arrays and inline tables are nested at most `depth` deep. -/
def value? : (depth : Nat) → Read Value
  | 0, '[' :: _ => none
  | depth + 1, '[' :: rest => arrayFrom (value? depth) [] rest
  | 0, '{' :: _ => none
  | depth + 1, '{' :: rest =>
    match skipBlanks rest with
    | '}' :: rest => some (.table [], rest)
    | rest => inlineTableFrom (value? depth) [] rest
  | _, t =>
    match string? t with
    | some (s, rest) => some (.string s, rest)
    | none => scalar? t

/-- A line of a document. -/
inductive Statement where
  | blank
  /-- The header of a table. -/
  | table (path : List Text)
  /-- The header of one more table of an array. -/
  | arrayTable (path : List Text)
  | assign (path : List Text) (v : Value)

/-- Read a line. -/
def statement? (t : Text) : Option (Statement × Text) :=
  match skipBlanks t with
  | [] => some (.blank, [])
  | '#' :: rest => (finishLine? ('#' :: rest)).map (.blank, ·)
  | '\n' :: rest => some (.blank, rest)
  | '\r' :: rest => (afterNewline? ('\r' :: rest)).map (.blank, ·)
  | '[' :: '[' :: rest => do
    let (path, rest) ← keyPath? rest
    return (.arrayTable path, ← finishLine? (← after? "]]" rest))
  | '[' :: rest => do
    let (path, rest) ← keyPath? rest
    return (.table path, ← finishLine? (← after? "]" rest))
  | t => do
    let ((path, v), rest) ← assignment? (value? maxDepth) t
    return (.assign path v, ← finishLine? rest)

/-- A document under construction. -/
structure Draft where
  entries : Entries := []
  /-- The header that assignments go below. -/
  current : List Text := []

/-- The draft with one more line. -/
def Draft.add? (draft : Draft) : Statement → Option Draft
  | .blank => some draft
  | .table path => do return ⟨← Entries.openTable path .header draft.entries, path⟩
  | .arrayTable path => do return ⟨← Entries.appendTable path .header draft.entries, path⟩
  | .assign path v => do
    let change := Entries.within false draft.current (Entries.assign path v)
    return { draft with entries := ← change .header draft.entries }

/-- Read lines up to the end of a document. -/
def linesFrom? (draft : Draft) (t : Text) : Option Draft :=
  match t with
  | [] => some draft
  | c :: more =>
    match statement? (c :: more) with
    | none => none
    | some (statement, rest) =>
      match draft.add? statement with
      | none => none
      | some draft =>
        if rest.length < (c :: more).length then linesFrom? draft rest else none
termination_by t.length
decreasing_by all_goals simp only [List.length_cons] at *; omega

/-- The value of a text that is a document. A byte order mark at the beginning does not count. -/
def parse? (t : Text) : Option Value :=
  let t := match t with
    | '\uFEFF' :: rest => rest
    | t => t
  (linesFrom? {} t).bind fun draft ↦ (Value.table (Item.toValues draft.entries)).resolve?

end LaunchOptions.Toml
