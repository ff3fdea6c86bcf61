import LaunchOptions.Text.Basic

/-!
# Placed characters

YAML goes by lines and columns. A document is read as a list of characters, each with its place;
line breaks are brought to one form, so that a rule can look at a break as at one character.
-/

namespace LaunchOptions.Yaml

/-- A character and its place; `index` counts the bytes before it, in UTF-8. -/
structure Spot where
  char : Char
  line : Nat
  column : Nat
  index : Nat
  deriving DecidableEq, Repr

/-- The breaks that keep their own form: the line and the paragraph separator. -/
def isSeparatorBreak (c : Char) : Bool := c = '\u2028' || c = '\u2029'

/-- The breaks that become a line feed. -/
def isPlainBreak (c : Char) : Bool := c = '\n' || c = '\r' || c = '\u0085'

/-- The breaks that remain in a placed text. -/
def isBreak (c : Char) : Bool := c = '\n' || isSeparatorBreak c

/-- Space and tab. -/
def isBlank (c : Char) : Bool := c = ' ' || c = '\t'

/-- The characters that a document may hold. -/
def isAllowed (c : Char) : Bool :=
  let n := c.toNat
  n == 0x09 || n == 0x0A || n == 0x0D || (0x20 ≤ n && n ≤ 0x7E) || n == 0x85 ||
    (0xA0 ≤ n && n ≤ 0xD7FF) || (0xE000 ≤ n && n ≤ 0xFFFD) || 0x10000 ≤ n

/-- Give each character its place. -/
def placeFrom (line column index : Nat) : Text → List Spot
  | [] => []
  | '\r' :: '\n' :: rest => ⟨'\n', line, column, index⟩ :: placeFrom (line + 1) 0 (index + 2) rest
  | c :: rest =>
    let next := index + c.utf8Size
    if isPlainBreak c then ⟨'\n', line, column, index⟩ :: placeFrom (line + 1) 0 next rest
    else if isSeparatorBreak c then ⟨c, line, column, index⟩ :: placeFrom (line + 1) 0 next rest
    else ⟨c, line, column, index⟩ :: placeFrom line (column + 1) next rest

/-- The placed characters of a document, if all of them are allowed. -/
def place? (t : Text) : Option (List Spot) :=
  if t.all isAllowed then some (placeFrom 0 0 0 t) else none

/-- Whether the next character is a given one. -/
def nextIs (c : Char) : List Spot → Bool
  | s :: _ => s.char = c
  | [] => false

/-- Whether a word ends here: at a blank, a break or the end. -/
def endsWord : List Spot → Bool
  | s :: _ => isBlank s.char || isBreak s.char
  | [] => true

/-- Whether a line begins here with a document marker: three times `c`, and then the end of a
word. -/
def isMarker (c : Char) : List Spot → Bool
  | a :: b :: d :: rest =>
    a.column == 0 && a.char = c && b.char = c && d.char = c && endsWord rest
  | _ => false

/-- Whether a line begins here with a marker of the beginning or the end of a document. -/
def atMarker (spots : List Spot) : Bool := isMarker '-' spots || isMarker '.' spots

/-- The characters at some spots. -/
def chars (spots : List Spot) : Text := spots.map Spot.char

/-- The spots after the blanks that come next. -/
def skipBlanks (spots : List Spot) : List Spot := spots.dropWhile (fun s ↦ isBlank s.char)

/-- The spots from the next break on. -/
def skipLine (spots : List Spot) : List Spot := spots.dropWhile (fun s ↦ !isBreak s.char)

/-- What follows the rest of a line in which only blanks and a comment may stand. -/
def finishLine? (spots : List Spot) : Option (List Spot) :=
  let rest := skipBlanks spots
  let rest := if nextIs '#' rest then skipLine rest else rest
  match rest with
  | [] => some []
  | s :: rest => if isBreak s.char then some rest else none

/-- The characters of names: letters, digits, `_` and `-`. -/
def isNameChar (c : Char) : Bool := c.isAlphanum || c = '_' || c = '-'

/-- The value of a hexadecimal digit. -/
def hexValue? (c : Char) : Option Nat :=
  if '0' ≤ c && c ≤ '9' then some (c.toNat - '0'.toNat)
  else if 'a' ≤ c && c ≤ 'f' then some (c.toNat - 'a'.toNat + 10)
  else if 'A' ≤ c && c ≤ 'F' then some (c.toNat - 'A'.toNat + 10)
  else none

end LaunchOptions.Yaml
