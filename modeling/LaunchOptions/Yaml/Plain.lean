import LaunchOptions.Yaml.Folding

/-!
# Plain scalars

A scalar without quotes goes on until a comment, a document marker, a `:` before the end of a
word, a line that is not indented enough or, within brackets, an indicator of the brackets.
-/

namespace LaunchOptions.Yaml

/-- The indicators of flow collections. -/
def isFlowIndicator (c : Char) : Bool :=
  c = ',' || c = '[' || c = ']' || c = '{' || c = '}'

/-- A plain scalar that has been read. -/
structure PlainScalar where
  text : Text
  /-- Whether breaks follow it. -/
  atNewLine : Bool
  rest : List Spot

/-- Read on in a plain scalar that holds `text` so far, has `gap` behind it, and needs its lines to
begin at `column` or after it, unless it stands in a flow collection. -/
def plainFrom (inFlow : Bool) (column : Nat) (text : Text) (gap : Gap) (afterGap : Bool) :
    List Spot → Option PlainScalar
  | [] => some ⟨text, gap.leavesLine, []⟩
  | s :: rest =>
    if isBlank s.char then
      if gap.leavesLine && s.column < column && s.char = '\t' then none
      else plainFrom inFlow column text (gap.addBlank s.char) true rest
    else if isBreak s.char then plainFrom inFlow column text (gap.addBreak s.char) true rest
    else if afterGap && (atMarker (s :: rest) || s.char = '#' ||
        (gap.leavesLine && !inFlow && s.column < column)) then
      some ⟨text, gap.leavesLine, s :: rest⟩
    else if inFlow && s.char = ':' &&
        (rest.head?.any fun n ↦ isFlowIndicator n.char || n.char = '?') then
      none
    else if (s.char = ':' && endsWord rest) || (inFlow && isFlowIndicator s.char) then
      some ⟨text, gap.leavesLine, s :: rest⟩
    else plainFrom inFlow column (text ++ gap.fold ++ [s.char]) {} false rest

/-- Read a plain scalar. -/
def plain? (inFlow : Bool) (column : Nat) (spots : List Spot) : Option PlainScalar :=
  plainFrom inFlow column [] {} true spots

end LaunchOptions.Yaml
