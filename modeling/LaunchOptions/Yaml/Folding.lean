import LaunchOptions.Yaml.Spot

/-!
# Folding

Within a scalar, blanks around breaks do not count, a single break becomes a space, and of
several breaks the first one is dropped. A gap is what stands between two words of a scalar.
-/

namespace LaunchOptions.Yaml

/-- The blanks and breaks between two words of a scalar. -/
structure Gap where
  /-- The blanks before the first break. -/
  blanks : Text := []
  /-- The breaks. -/
  breaks : Text := []
  /-- Whether an escaped break came first. -/
  escaped : Bool := false

namespace Gap

/-- Whether the gap leaves its line. -/
def leavesLine (gap : Gap) : Bool := gap.escaped || !gap.breaks.isEmpty

/-- The gap with one more blank; behind a break blanks do not count. -/
def addBlank (gap : Gap) (c : Char) : Gap :=
  if gap.leavesLine then gap else { gap with blanks := gap.blanks ++ [c] }

/-- The gap with one more break. -/
def addBreak (gap : Gap) (c : Char) : Gap := { gap with blanks := [], breaks := gap.breaks ++ [c] }

/-- The gap that begins with an escaped break. -/
def ofEscapedBreak : Gap := { escaped := true }

/-- What a gap contributes to the scalar. -/
def fold (gap : Gap) : Text :=
  if gap.escaped then gap.breaks
  else
    match gap.breaks with
    | [] => gap.blanks
    | ['\n'] => [' ']
    | '\n' :: more => more
    | breaks => breaks

end Gap

end LaunchOptions.Yaml
