import LaunchOptions.Toml.Value

/-!
# Space between TOML tokens

Blanks, line ends and comments. A carriage return counts only before a line feed, and a comment
holds no control character but the tab.
-/

namespace LaunchOptions.Toml

/-- Space and tab. -/
def isBlank (c : Char) : Bool := c = ' ' || c = '\t'

/-- The text after the blanks that come next. -/
def skipBlanks (t : Text) : Text := t.dropWhile isBlank

/-- The characters of comments: all but control characters other than the tab. -/
def isVisible (c : Char) : Bool := c = '\t' || (0x20 ≤ c.toNat && c.toNat ≠ 0x7F)

/-- The text after a line end. -/
def afterNewline? : Text → Option Text
  | '\n' :: rest => some rest
  | '\r' :: '\n' :: rest => some rest
  | _ => none

/-- The text after a comment, if one comes next. -/
def skipComment : Text → Text
  | '#' :: rest => rest.dropWhile isVisible
  | t => t

/-- The text after the rest of a line in which only blanks and a comment may stand. -/
def finishLine? (t : Text) : Option Text :=
  let rest := skipComment (skipBlanks t)
  if rest.isEmpty then some [] else afterNewline? rest

/-- Pass over blanks, line ends and comments. -/
def skipSpaceFrom (inComment : Bool) : Text → Text
  | [] => []
  | '\n' :: rest => skipSpaceFrom false rest
  | '\r' :: '\n' :: rest => skipSpaceFrom false rest
  | c :: rest =>
    if inComment then (if isVisible c then skipSpaceFrom true rest else c :: rest)
    else if isBlank c then skipSpaceFrom false rest
    else if c = '#' then skipSpaceFrom true rest
    else c :: rest

/-- The text after the blanks, line ends and comments that come next. -/
def skipSpace (t : Text) : Text := skipSpaceFrom false t

end LaunchOptions.Toml
