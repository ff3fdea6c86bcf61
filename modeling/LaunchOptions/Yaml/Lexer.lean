import LaunchOptions.Yaml.BlockScalar
import LaunchOptions.Yaml.Directive
import LaunchOptions.Yaml.Plain
import LaunchOptions.Yaml.Quoted

/-!
# From characters to tokens

Two things make this more than a matter of characters. A key is recognised only by the `:` behind
it, so the place of a token that may turn out to be a key is remembered, and its `key` token is put
in later. And in block context a token opens and closes collections by its column.
-/

namespace LaunchOptions.Yaml

/-- A token that is a key if a `:` follows. -/
structure PendingKey where
  /-- The number of tokens before it. -/
  position : Nat
  /-- Where it begins. -/
  spot : Spot
  /-- Whether it has to be a key, as it stands where a key of the current mapping would. -/
  required : Bool

/-- What the tokens so far determine about the next one. -/
structure Lexer where
  tokens : Array Token := #[]
  /-- The column of the innermost block collection. -/
  indent : Option Nat := none
  /-- The columns of the block collections around it. -/
  outerIndents : List (Option Nat) := []
  /-- Whether a key may begin here. -/
  keyAllowed : Bool := true
  /-- What may be a key in the innermost flow collection, or in block context. -/
  pending : Option PendingKey := none
  /-- What may be a key around it, for each flow collection that is open. -/
  outerPending : List (Option PendingKey) := []

namespace Lexer

/-- Whether a flow collection is open. -/
def inFlow (lexer : Lexer) : Bool := !lexer.outerPending.isEmpty

/-- The lexer with one more token. -/
def push (lexer : Lexer) (token : Token) : Lexer :=
  { lexer with tokens := lexer.tokens.push token }

/-- The longest distance of a `:` from the beginning of its key, in bytes. -/
def maxKeyLength : Nat := 1024

/-- Whether a pending key is past: its line is over, or it has become too long. -/
def PendingKey.isPast (key : PendingKey) (here : Spot) : Bool :=
  key.spot.line < here.line || key.spot.index + maxKeyLength < here.index

/-- Give up a pending key that is past, unless it is required. -/
def expire? (here : Spot) : Option PendingKey → Option (Option PendingKey)
  | none => some none
  | some key =>
    if PendingKey.isPast key here then (if key.required then none else some none)
    else some (some key)

/-- Give up all pending keys that are past. -/
def expireKeys? (lexer : Lexer) (here : Spot) : Option Lexer := do
  let pending ← expire? here lexer.pending
  let outerPending ← lexer.outerPending.mapM (expire? here)
  return { lexer with pending, outerPending }

/-- Give up the pending key of the current context, unless it is required. -/
def dropKey? (lexer : Lexer) : Option Lexer :=
  if lexer.pending.any (·.required) then none else some { lexer with pending := none }

/-- Let the token that comes next be a key, if one may begin here. -/
def saveKey? (lexer : Lexer) (here : Spot) : Option Lexer :=
  if lexer.keyAllowed then do
    let lexer ← lexer.dropKey?
    let required := !lexer.inFlow && lexer.indent = some here.column
    return { lexer with pending := some ⟨lexer.tokens.size, here, required⟩ }
  else some lexer

/-- Open a block collection at a column, with its token at a position, if the column lies further
in than that of the current one. -/
def openBlock (lexer : Lexer) (column position : Nat) (kind : CollectionKind) : Lexer :=
  if lexer.inFlow || lexer.indent.any (column ≤ ·) then lexer
  else
    { lexer with
      tokens := lexer.tokens.insertIdxIfInBounds position (.blockStart kind)
      indent := some column
      outerIndents := lexer.indent :: lexer.outerIndents }

/-- Close block collections while they are indented more than `column`; all if it is `none`. -/
def closeBlocks (column : Option Nat) (tokens : Array Token) :
    Option Nat → List (Option Nat) → Array Token × Option Nat × List (Option Nat)
  | none, outer => (tokens, none, outer)
  | some indent, outer =>
    if column.all (· < indent) then
      match outer with
      | next :: outer => closeBlocks column (tokens.push .blockEnd) next outer
      | [] => (tokens.push .blockEnd, none, [])
    else (tokens, some indent, outer)
termination_by _ outer => outer.length

/-- The lexer with the block collections closed that are indented more than `column`. -/
def unindent (lexer : Lexer) (column : Option Nat) : Lexer :=
  if lexer.inFlow then lexer
  else
    let (tokens, indent, outerIndents) :=
      closeBlocks column lexer.tokens lexer.indent lexer.outerIndents
    { lexer with tokens, indent, outerIndents }

/-- Pass over blanks, comments and breaks. Tabs count as blanks where no key may begin and in flow
collections. A line may begin with a byte order mark, which takes a column. A break allows a key in
block context. -/
def toToken (inFlow : Bool) : (keyAllowed inComment : Bool) → List Spot → Bool × List Spot
  | keyAllowed, _, [] => (keyAllowed, [])
  | keyAllowed, inComment, s :: rest =>
    if isBreak s.char then toToken inFlow (keyAllowed || !inFlow) false rest
    else if inComment then toToken inFlow keyAllowed true rest
    else if s.char = '#' then toToken inFlow keyAllowed true rest
    else if s.char = ' ' || (s.char = '\t' && (inFlow || !keyAllowed)) ||
        (s.char = '\uFEFF' && s.column == 0) then
      toToken inFlow keyAllowed false rest
    else (keyAllowed, s :: rest)

/-- The lexer before a token that belongs to no block collection. -/
def outdent? (lexer : Lexer) : Option Lexer := do
  let lexer ← (lexer.unindent none).dropKey?
  return { lexer with keyAllowed := false }

/-- A token that may be a key. -/
def keyToken? (lexer : Lexer) (here : Spot) (token : Token) : Option Lexer := do
  let lexer ← lexer.saveKey? here
  return { lexer with keyAllowed := false }.push token

/-- The beginning of a flow collection. -/
def flowStart? (lexer : Lexer) (here : Spot) (kind : CollectionKind) : Option Lexer := do
  let lexer ← lexer.saveKey? here
  return { lexer with
    keyAllowed := true
    pending := none
    outerPending := lexer.pending :: lexer.outerPending }.push (.flowStart kind)

/-- The end of a flow collection. -/
def flowEnd? (lexer : Lexer) (kind : CollectionKind) : Option Lexer := do
  let lexer ← lexer.dropKey?
  let lexer := { lexer with keyAllowed := false }
  match lexer.outerPending with
  | pending :: outerPending => return { lexer with pending, outerPending }.push (.flowEnd kind)
  | [] => return lexer.push (.flowEnd kind)

/-- A `,`. -/
def flowEntry? (lexer : Lexer) : Option Lexer := do
  return { ← lexer.dropKey? with keyAllowed := true }.push .flowEntry

/-- A `-` before an entry. -/
def blockEntry? (lexer : Lexer) (here : Spot) : Option Lexer := do
  if !lexer.inFlow && !lexer.keyAllowed then none
  else
    let lexer := lexer.openBlock here.column lexer.tokens.size .sequence
    return { ← lexer.dropKey? with keyAllowed := true }.push .blockEntry

/-- A `?` before a key. -/
def key? (lexer : Lexer) (here : Spot) : Option Lexer := do
  if !lexer.inFlow && !lexer.keyAllowed then none
  else
    let lexer := lexer.openBlock here.column lexer.tokens.size .mapping
    return { ← lexer.dropKey? with keyAllowed := !lexer.inFlow }.push .key

/-- A `:` before a value. If something may be a key, it is one. -/
def value? (lexer : Lexer) (here : Spot) : Option Lexer :=
  match lexer.pending with
  | some key =>
    let lexer := { lexer with
      tokens := lexer.tokens.insertIdxIfInBounds key.position .key
      pending := none }
    let lexer := lexer.openBlock key.spot.column key.position .mapping
    some ({ lexer with keyAllowed := false }.push .value)
  | none =>
    if lexer.inFlow then some ({ lexer with keyAllowed := false }.push .value)
    else if !lexer.keyAllowed then none
    else
      let lexer := lexer.openBlock here.column lexer.tokens.size .mapping
      some ({ lexer with keyAllowed := true }.push .value)

/-- Read the name of an anchor or an alias. -/
def name? (spots : List Spot) : Option (Text × List Spot) :=
  let name := chars (spots.takeWhile (fun s ↦ isNameChar s.char))
  let rest := spots.dropWhile (fun s ↦ isNameChar s.char)
  let ended := endsWord rest || rest.head?.any fun s ↦ "?:,]\x7D%@`".toList.contains s.char
  if name.isEmpty || !ended then none else some (name, rest)

/-- Whether a plain scalar may begin here. -/
def beginsPlain (inFlow : Bool) (here : Spot) (rest : List Spot) : Bool :=
  if here.char = '-' then !(rest.head?.any fun s ↦ isBlank s.char)
  else if here.char = '?' || here.char = ':' then !inFlow && !endsWord rest
  else !",[]\x7B\x7D#&*!|>'\"%@`".toList.contains here.char && !isBlank here.char

/-- Read one token that begins with `here`. -/
def token? (lexer : Lexer) (here : Spot) (rest : List Spot) : Option (Lexer × List Spot) :=
  let c := here.char
  if here.column = 0 && c = '%' then do
    let lexer ← lexer.outdent?
    let (token, rest) ← directive? rest
    return (lexer.push token, rest)
  else if isMarker '-' (here :: rest) then do
    return ((← lexer.outdent?).push .documentStart, rest.drop 2)
  else if isMarker '.' (here :: rest) then do
    return ((← lexer.outdent?).push .documentEnd, rest.drop 2)
  else if c = '[' then do return (← lexer.flowStart? here .sequence, rest)
  else if c = '{' then do return (← lexer.flowStart? here .mapping, rest)
  else if c = ']' then do return (← lexer.flowEnd? .sequence, rest)
  else if c = '}' then do return (← lexer.flowEnd? .mapping, rest)
  else if c = ',' then do return (← lexer.flowEntry?, rest)
  else if c = '-' && endsWord rest then do return (← lexer.blockEntry? here, rest)
  else if c = '?' && (lexer.inFlow || endsWord rest) then do return (← lexer.key? here, rest)
  else if c = ':' && (lexer.inFlow || endsWord rest) then do return (← lexer.value? here, rest)
  else if c = '*' then do
    let (name, rest) ← name? rest
    return (← lexer.keyToken? here (.alias name), rest)
  else if c = '&' then do
    let (name, rest) ← name? rest
    return (← lexer.keyToken? here (.anchor name), rest)
  else if c = '!' then do
    let (tag, rest) ← tag? lexer.inFlow (here :: rest)
    return (← lexer.keyToken? here (.tag tag), rest)
  else if (c = '|' || c = '>') && !lexer.inFlow then do
    let lexer ← lexer.dropKey?
    let (text, rest) ← blockScalar? (c = '|') lexer.indent rest
    return ({ lexer with keyAllowed := true }.push (.scalar .literal text), rest)
  else if c = '\'' || c = '"' then do
    let (text, rest) ← quoted? c rest
    return (← lexer.keyToken? here (.scalar .literal text), rest)
  else if beginsPlain lexer.inFlow here rest then do
    let column := match lexer.indent with
      | some n => n + 1
      | none => 0
    let scalar ← plain? lexer.inFlow column (here :: rest)
    let lexer ← lexer.keyToken? here (.scalar .plain scalar.text)
    return ({ lexer with keyAllowed := scalar.atNewLine }, scalar.rest)
  else none

/-- Read the tokens of some characters. -/
def run? (lexer : Lexer) (spots : List Spot) : Option (List Token) :=
  let (keyAllowed, remaining) := toToken lexer.inFlow lexer.keyAllowed false spots
  let lexer := { lexer with keyAllowed }
  match remaining with
  | [] => ((lexer.unindent none).dropKey?).map (·.tokens.toList)
  | here :: rest =>
    match (lexer.expireKeys? here).bind (fun lexer ↦
        (lexer.unindent (some here.column)).token? here rest) with
    | none => none
    | some (lexer, rest) =>
      if rest.length < spots.length then run? lexer rest else none
termination_by spots.length

end Lexer

/-- The tokens of a document. -/
def tokens? (t : Text) : Option (List Token) := do
  Lexer.run? {} (← place? t)

end LaunchOptions.Yaml
