import LaunchOptions.Toml.Space

/-!
# TOML strings

Basic strings stand in double quotes and have escapes, literal strings stand in single quotes and
have none. Either kind has a form over several lines, in three quotes. That form drops a line end
right after its opening, and may end in up to two quotes more than close it.
-/

namespace LaunchOptions.Toml

/-- The value of a hexadecimal digit. -/
def hexValue? (c : Char) : Option Nat :=
  if '0' ≤ c && c ≤ '9' then some (c.toNat - '0'.toNat)
  else if 'a' ≤ c && c ≤ 'f' then some (c.toNat - 'a'.toNat + 10)
  else if 'A' ≤ c && c ≤ 'F' then some (c.toNat - 'A'.toNat + 10)
  else none

/-- Read `width` hexadecimal digits. -/
def hexNumber? : (width value : Nat) → Read Nat
  | 0, value, t => some (value, t)
  | _ + 1, _, [] => none
  | width + 1, value, c :: rest =>
    match hexValue? c with
    | some digit => hexNumber? width (16 * value + digit) rest
    | none => none

/-- The characters that escapes of one character stand for. -/
def escapes : List (Char × Char) :=
  [('b', '\x08'), ('t', '\t'), ('n', '\n'), ('f', '\x0C'), ('r', '\r'), ('"', '"'), ('\\', '\\')]

/-- Read an escape after its backslash. -/
def escape? : Read Char
  | [] => none
  | c :: rest =>
    match escapes.lookup c with
    | some e => some (e, rest)
    | none =>
      if c = 'u' || c = 'U' then
        match hexNumber? (if c = 'u' then 4 else 8) 0 rest with
        | some (value, rest) => if value.isValidChar then some (Char.ofNat value, rest) else none
        | none => none
      else none

/-- Read on in a basic string of one line, up to and with the closing quote. -/
def basicFrom (before : Text) (t : Text) : Option (Text × Text) :=
  match t with
  | [] => none
  | c :: rest =>
    if c = '"' then some (before, rest)
    else if c = '\\' then
      match escape? rest with
      | none => none
      | some (e, after) =>
        if after.length < (c :: rest).length then basicFrom (before ++ [e]) after else none
    else if isVisible c then basicFrom (before ++ [c]) rest
    else none
termination_by t.length
decreasing_by all_goals simp only [List.length_cons] at *; omega

/-- Read on in a literal string of one line, up to and with the closing quote. -/
def literalFrom (before : Text) : Read Text
  | [] => none
  | c :: rest =>
    if c = '\'' then some (before, rest)
    else if isVisible c then literalFrom (before ++ [c]) rest
    else none

/-- The text after the blanks and line ends that come next. -/
def skipBlankLines : Text → Text
  | '\n' :: rest => skipBlankLines rest
  | '\r' :: '\n' :: rest => skipBlankLines rest
  | c :: rest => if isBlank c then skipBlankLines rest else c :: rest
  | [] => []

/-- The text after the blanks and the line ends behind a backslash that joins lines. -/
def afterJoin? (t : Text) : Option Text :=
  (afterNewline? (skipBlanks t)).map skipBlankLines

/-- Read on in a string of several lines, up to and with the closing quotes. -/
def linesFrom (quote : Char) (before : Text) (t : Text) : Option (Text × Text) :=
  match t with
  | [] => none
  | c :: rest =>
    if c = quote then
      if [quote, quote].isPrefixOf rest then
        let extra := ((rest.drop 2).takeWhile (· = quote)).take 2
        some (before ++ extra, rest.drop (2 + extra.length))
      else linesFrom quote (before ++ [c]) rest
    else if c = '\n' then linesFrom quote (before ++ ['\n']) rest
    else if c = '\r' then
      match rest with
      | '\n' :: more => linesFrom quote (before ++ ['\n']) more
      | _ => none
    else if c = '\\' && quote = '"' then
      match afterJoin? rest, escape? rest with
      | some after, _ =>
        if after.length < (c :: rest).length then linesFrom quote before after else none
      | none, some (e, after) =>
        if after.length < (c :: rest).length then linesFrom quote (before ++ [e]) after else none
      | none, none => none
    else if isVisible c then linesFrom quote (before ++ [c]) rest
    else none
termination_by t.length
decreasing_by all_goals simp only [List.length_cons] at *; omega

/-- Read a string of any form. -/
def string? : Read Text
  | '"' :: '"' :: '"' :: rest => linesFrom '"' [] ((afterNewline? rest).getD rest)
  | '\'' :: '\'' :: '\'' :: rest => linesFrom '\'' [] ((afterNewline? rest).getD rest)
  | '"' :: rest => basicFrom [] rest
  | '\'' :: rest => literalFrom [] rest
  | _ => none

end LaunchOptions.Toml
