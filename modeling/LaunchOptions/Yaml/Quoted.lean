import LaunchOptions.Yaml.Folding

/-!
# Quoted scalars

In single quotes a quote is written twice, and nothing else is special. In double quotes a
backslash begins an escape; before a break it joins the lines.
-/

namespace LaunchOptions.Yaml

/-- The characters that escapes of one character stand for. -/
def escapes : List (Char × Char) :=
  [('0', '\x00'), ('a', '\x07'), ('b', '\x08'), ('t', '\t'), ('\t', '\t'), ('n', '\n'),
    ('v', '\x0B'), ('f', '\x0C'), ('r', '\r'), ('e', '\x1B'), (' ', ' '), ('"', '"'), ('/', '/'),
    ('\\', '\\'), ('N', '\u0085'), ('_', '\u00A0'), ('L', '\u2028'), ('P', '\u2029')]

/-- The number of hexadecimal digits after an escape. -/
def escapeWidth? (c : Char) : Option Nat :=
  if c = 'x' then some 2 else if c = 'u' then some 4 else if c = 'U' then some 8 else none

/-- A number of `width` hexadecimal digits, and what follows it. -/
def hexNumber? : (width : Nat) → (value : Nat) → List Spot → Option (Nat × List Spot)
  | 0, value, spots => some (value, spots)
  | _ + 1, _, [] => none
  | width + 1, value, s :: rest =>
    match hexValue? s.char with
    | some digit => hexNumber? width (16 * value + digit) rest
    | none => none

private theorem length_of_hexNumber? {width value n : Nat} {spots rest : List Spot}
    (h : hexNumber? width value spots = some (n, rest)) : rest.length ≤ spots.length := by
  induction width generalizing value spots with
  | zero =>
    simp only [hexNumber?, Option.some.injEq, Prod.mk.injEq] at h
    simp [h.2]
  | succ width ih =>
    cases spots with
    | nil => simp [hexNumber?] at h
    | cons s more =>
      simp only [hexNumber?] at h
      split at h
      · exact Nat.le_succ_of_le (ih h)
      · simp at h

/-- Read on in a scalar in single quotes, up to and with the closing quote. -/
def singleFrom (text : Text) (gap : Gap) : List Spot → Option (Text × List Spot)
  | [] => none
  | s :: rest =>
    if isBlank s.char then singleFrom text (gap.addBlank s.char) rest
    else if isBreak s.char then singleFrom text (gap.addBreak s.char) rest
    else if atMarker (s :: rest) then none
    else if s.char = '\'' then
      match rest with
      | n :: more =>
        if n.char = '\'' then singleFrom (text ++ gap.fold ++ ['\'']) {} more
        else some (text ++ gap.fold, n :: more)
      | [] => some (text ++ gap.fold, [])
    else singleFrom (text ++ gap.fold ++ [s.char]) {} rest

/-- Read on in a scalar in double quotes, up to and with the closing quote. -/
def doubleFrom (text : Text) (gap : Gap) (spots : List Spot) : Option (Text × List Spot) :=
  match spots with
  | [] => none
  | s :: rest =>
    if isBlank s.char then doubleFrom text (gap.addBlank s.char) rest
    else if isBreak s.char then doubleFrom text (gap.addBreak s.char) rest
    else if atMarker (s :: rest) then none
    else if s.char = '"' then some (text ++ gap.fold, rest)
    else if s.char = '\\' then
      match rest with
      | [] => none
      | n :: more =>
        if isBreak n.char then doubleFrom (text ++ gap.fold) Gap.ofEscapedBreak more
        else
          match escapes.lookup n.char, escapeWidth? n.char with
          | some c, _ => doubleFrom (text ++ gap.fold ++ [c]) {} more
          | none, none => none
          | none, some width =>
            match h : hexNumber? width 0 more with
            | none => none
            | some (value, after) =>
              have := length_of_hexNumber? h
              if value.isValidChar then
                doubleFrom (text ++ gap.fold ++ [Char.ofNat value]) {} after
              else none
    else doubleFrom (text ++ gap.fold ++ [s.char]) {} rest
termination_by spots.length
decreasing_by all_goals simp only [List.length_cons]; omega

/-- Read a quoted scalar after its opening quote. -/
def quoted? (opening : Char) (spots : List Spot) : Option (Text × List Spot) :=
  if opening = '"' then doubleFrom [] {} spots else singleFrom [] {} spots

end LaunchOptions.Yaml
