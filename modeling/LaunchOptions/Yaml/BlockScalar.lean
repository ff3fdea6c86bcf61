import LaunchOptions.Yaml.Spot

/-!
# Block scalars

A scalar that begins with `|` or `>` in the line before it and ends where the indentation does.
`|` keeps its breaks, `>` folds those between lines that begin with no blank. The header may give
the indentation, and say what happens to the breaks at the end.
-/

namespace LaunchOptions.Yaml

/-- What happens to the breaks at the end of a block scalar. -/
inductive Chomping where
  /-- All go. -/
  | strip
  /-- The first one stays. -/
  | clip
  /-- All stay. -/
  | keep
  deriving DecidableEq, Repr

/-- The header of a block scalar. -/
structure BlockHeader where
  chomping : Chomping := .clip
  /-- The additional indentation, if it is given. -/
  indentation : Option Nat := none

namespace BlockHeader

/-- The chomping that an indicator asks for. -/
def chomping? (c : Char) : Option Chomping :=
  if c = '+' then some .keep else if c = '-' then some .strip else none

/-- The indentation that an indicator gives; zero is none. -/
def digit? (c : Char) : Option Nat :=
  if '1' ≤ c && c ≤ '9' then some (c.toNat - '0'.toNat) else none

/-- Read the two indicators of a header, in either order. -/
def indicators? : List Spot → Option (BlockHeader × List Spot)
  | [] => some ({}, [])
  | s :: rest =>
    match chomping? s.char with
    | some chomping =>
      match rest with
      | n :: more =>
        if n.char = '0' then none
        else
          match digit? n.char with
          | some digit => some ({ chomping, indentation := some digit }, more)
          | none => some ({ chomping }, rest)
      | [] => some ({ chomping }, rest)
    | none =>
      if s.char = '0' then none
      else
        match digit? s.char with
        | none => some ({}, s :: rest)
        | some digit =>
          match rest.head?.bind (fun n ↦ chomping? n.char) with
          | some chomping => some ({ chomping, indentation := some digit }, rest.drop 1)
          | none => some ({ indentation := some digit }, rest)

/-- Read a header with its line. -/
def read? (spots : List Spot) : Option (BlockHeader × List Spot) := do
  let (header, rest) ← indicators? spots
  return (header, ← finishLine? rest)

end BlockHeader

/-- What stands before a line of a block scalar. -/
structure BlockIndent where
  /-- The breaks of empty lines. -/
  breaks : Text
  /-- The widest indentation that was seen. -/
  widest : Nat
  rest : List Spot

/-- Read the empty lines and the indentation before the next line of text. The indentation goes up
to `column`, or to the first other character if it is not known yet, and holds no tab. -/
def blockIndentFrom (column : Option Nat) (breaks : Text) (widest : Nat) :
    List Spot → Option BlockIndent
  | [] => some ⟨breaks, widest, []⟩
  | s :: rest =>
    let inIndent := column.all (s.column < ·)
    if inIndent && s.char = ' ' then blockIndentFrom column breaks (max widest (s.column + 1)) rest
    else if inIndent && s.char = '\t' then none
    else if isBreak s.char then
      blockIndentFrom column (breaks ++ [s.char]) (max widest s.column) rest
    else some ⟨breaks, max widest s.column, s :: rest⟩

/-- Read the lines of a block scalar that begin at `column`. `text` is what there is so far,
`lineBreak` the break that ended its last line, `breaks` those of the empty lines behind it, and
`blankLine` tells whether its last line began with a blank. -/
def blockLines (literal : Bool) (column : Nat) (chomping : Chomping) (text lineBreak breaks : Text)
    (blankLine : Bool) (spots : List Spot) : Option (Text × List Spot) :=
  let finished : Text :=
    match chomping with
    | .strip => text
    | .clip => text ++ lineBreak
    | .keep => text ++ lineBreak ++ breaks
  match spots with
  | [] => some (finished, [])
  | s :: rest =>
    if s.column ≠ column then some (finished, s :: rest)
    else
      let joint : Text :=
        if !literal && lineBreak = ['\n'] && !blankLine && !isBlank s.char then
          (if breaks.isEmpty then [' '] else breaks)
        else lineBreak ++ breaks
      let line := (s :: rest).takeWhile (fun s ↦ !isBreak s.char)
      let after := skipLine (s :: rest)
      match blockIndentFrom (some column) [] 0 (after.drop 1) with
      | none => none
      | some indent =>
        if indent.rest.length < (s :: rest).length then
          blockLines literal column chomping (text ++ joint ++ chars line)
            (chars (after.take 1)) indent.breaks (isBlank s.char) indent.rest
        else none
termination_by spots.length
decreasing_by all_goals simp only [List.length_cons] at *; omega

/-- Read a block scalar after its indicator, within a block that is indented by `parent`. -/
def blockScalar? (literal : Bool) (parent : Option Nat) (spots : List Spot) :
    Option (Text × List Spot) := do
  let (header, rest) ← BlockHeader.read? spots
  let known := header.indentation.map (fun n ↦ parent.getD 0 + n)
  let indent ← blockIndentFrom known [] 0 rest
  let least := match parent with
    | some n => n + 1
    | none => 1
  let column := known.getD (max indent.widest least)
  blockLines literal column header.chomping [] [] indent.breaks false indent.rest

end LaunchOptions.Yaml
