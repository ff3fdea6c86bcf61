import LaunchOptions.Yaml.Token

/-!
# Nodes

The tree that the tokens of a document describe. Tags and anchors are resolved as to their names,
but an alias is still a reference to the node that was anchored.

The tokens are read by recursive descent. Every reading of a node takes at least one token or stands
in a place where no node is written, so `fuel` is the number of tokens with room to spare.
-/

namespace LaunchOptions.Yaml

/-- What an anchor stands for, as aliases see it. -/
abbrev AnchorId := Nat

/-- What may be written before a node. -/
structure NodeProperties where
  anchor : Option AnchorId := none
  /-- The tag in full. -/
  tag : Option Bytes := none

/-- A node of a document. -/
inductive Node where
  | alias (target : AnchorId)
  | scalar (properties : NodeProperties) (style : ScalarStyle) (text : Text)
  | sequence (properties : NodeProperties) (items : List Node)
  | mapping (properties : NodeProperties) (entries : List (Node × Node))

namespace Node

/-- What is known while nodes are read. -/
structure Reading where
  /-- The tokens to come. -/
  tokens : List Token
  /-- What the handles of tags stand for. -/
  handles : List (Text × Bytes)
  /-- What the anchors so far stand for; the last one of a name counts. -/
  anchors : List (Text × AnchorId) := []
  /-- The number of names that have been anchored. -/
  names : Nat := 0

/-- A step of reading nodes. -/
abbrev Read := StateT Reading Option

/-- The next token, which stays. -/
def peek : Read (Option Token) := do return (← get).tokens.head?

/-- Pass over the next token. -/
def advance : Read Unit := modify fun r ↦ { r with tokens := r.tokens.drop 1 }

/-- Pass over the next token, which has to be a given one. -/
def expect (token : Token) : Read Unit := do
  if (← peek) = some token then advance else failure

/-- Whether the next token is one of some tokens. -/
def nextIn (tokens : List Token) : Read Bool := do
  return (← peek).any tokens.contains

/-- A node where none is written. -/
def absent : Node := .scalar {} .plain []

/-- Anchor a name. A name that is anchored again is no new name. -/
def anchorName (name : Text) : Read AnchorId := do
  let r ← get
  let id := r.names
  let isNew := (r.anchors.lookup name).isNone
  set { r with
    anchors := (name, id) :: r.anchors
    names := if isNew then r.names + 1 else r.names }
  return id

/-- A tag in full. -/
def resolveTag (written : WrittenTag) : Read Bytes := do
  if written.handle.isEmpty then return written.suffix
  else
    match (← get).handles.lookup written.handle with
    | some replacement => return replacement ++ written.suffix
    | none => failure

/-- Read an anchor name, if one is next. -/
def anchor? : Read (Option Text) := do
  match ← peek with
  | some (.anchor name) => advance; return some name
  | _ => return none

/-- Read a tag, if one is next. -/
def writtenTag? : Read (Option WrittenTag) := do
  match ← peek with
  | some (.tag written) => advance; return some written
  | _ => return none

/-- Read the name of an anchor and a tag, in either order, as far as they are there. -/
def names? : Read (Option Text × Option Bytes) := do
  let first ← anchor?
  let written ← writtenTag?
  let name ← if first.isNone && written.isSome then anchor? else pure first
  match written with
  | none => return (name, none)
  | some written => return (name, some (← resolveTag written))

/-- The properties of a node that is there. -/
def properties (name : Option Text) (tag : Option Bytes) : Read NodeProperties := do
  match name with
  | some name => return ⟨some (← anchorName name), tag⟩
  | none => return ⟨none, tag⟩

mutual

/-- Read a node. In block context it may be a block collection and, `indentless`, a sequence whose
entries are not indented more than the mapping they belong to. -/
def node (fuel : Nat) (block indentless : Bool) : Read Node :=
  match fuel with
  | 0 => failure
  | fuel + 1 => do
    if let some (.alias name) ← peek then
      advance
      match (← get).anchors.lookup name with
      | some id => return .alias id
      | none => failure
    let (name, tag) ← names?
    let next ← peek
    match next with
    | some .blockEntry =>
      if indentless then
        let p ← properties name tag
        return .sequence p (← indentlessItems fuel)
    | some (.scalar style text) =>
      advance
      return .scalar (← properties name tag) style text
    | some (.flowStart .sequence) =>
      advance
      let p ← properties name tag
      return .sequence p (← flowItems fuel true)
    | some (.flowStart .mapping) =>
      advance
      let p ← properties name tag
      return .mapping p (← flowEntries fuel true)
    | some (.blockStart .sequence) =>
      if block then
        advance
        let p ← properties name tag
        return .sequence p (← blockItems fuel)
    | some (.blockStart .mapping) =>
      if block then
        advance
        let p ← properties name tag
        return .mapping p (← blockEntries fuel)
    | _ => pure ()
    if name.isSome || tag.isSome then return .scalar (← properties name tag) .plain []
    else failure

/-- Read the entries of a block sequence. -/
def blockItems (fuel : Nat) : Read (List Node) :=
  match fuel with
  | 0 => failure
  | fuel + 1 => do
    match ← peek with
    | some .blockEntry =>
      advance
      let item ← if ← nextIn [.blockEntry, .blockEnd] then pure absent else node fuel true false
      return item :: (← blockItems fuel)
    | some .blockEnd => advance; return []
    | _ => failure

/-- Read the entries of a sequence that ends where no entry follows. -/
def indentlessItems (fuel : Nat) : Read (List Node) :=
  match fuel with
  | 0 => failure
  | fuel + 1 => do
    match ← peek with
    | some .blockEntry =>
      advance
      let item ←
        if ← nextIn [.blockEntry, .key, .value, .blockEnd] then pure absent
        else node fuel true false
      return item :: (← indentlessItems fuel)
    | _ => return []

/-- Read the entries of a block mapping. -/
def blockEntries (fuel : Nat) : Read (List (Node × Node)) :=
  match fuel with
  | 0 => failure
  | fuel + 1 => do
    match ← peek with
    | some .key =>
      advance
      let key ← if ← nextIn [.key, .value, .blockEnd] then pure absent else node fuel true true
      let value ← blockValue fuel
      return (key, value) :: (← blockEntries fuel)
    | some .blockEnd => advance; return []
    | _ => failure

/-- Read the value of an entry of a block mapping, if there is one. -/
def blockValue (fuel : Nat) : Read Node :=
  match fuel with
  | 0 => failure
  | fuel + 1 => do
    if ← nextIn [.value] then
      advance
      if ← nextIn [.key, .value, .blockEnd] then return absent else node fuel true true
    else return absent

/-- Read the items of a flow sequence. A key makes an item that is a mapping of one entry. -/
def flowItems (fuel : Nat) (first : Bool) : Read (List Node) :=
  match fuel with
  | 0 => failure
  | fuel + 1 => do
    if ← nextIn [.flowEnd .sequence] then advance; return []
    if !first then expect .flowEntry
    match ← peek with
    | some (.flowEnd .sequence) => advance; return []
    | some .key =>
      advance
      let key ←
        if ← nextIn [.value, .flowEntry, .flowEnd .sequence] then do advance; pure absent
        else node fuel false false
      let value ← flowValue fuel .sequence
      return .mapping {} [(key, value)] :: (← flowItems fuel false)
    | _ =>
      let item ← node fuel false false
      return item :: (← flowItems fuel false)

/-- Read a value in a flow collection, if there is one. -/
def flowValue (fuel : Nat) (kind : CollectionKind) : Read Node :=
  match fuel with
  | 0 => failure
  | fuel + 1 => do
    if ← nextIn [.value] then
      advance
      if ← nextIn [.flowEntry, .flowEnd kind] then return absent else node fuel false false
    else return absent

/-- Read the entries of a flow mapping. An entry without a key token has no value. -/
def flowEntries (fuel : Nat) (first : Bool) : Read (List (Node × Node)) :=
  match fuel with
  | 0 => failure
  | fuel + 1 => do
    if ← nextIn [.flowEnd .mapping] then advance; return []
    if !first then expect .flowEntry
    match ← peek with
    | some (.flowEnd .mapping) => advance; return []
    | some .key =>
      advance
      let key ←
        if ← nextIn [.value, .flowEntry, .flowEnd .mapping] then pure absent
        else node fuel false false
      let value ← flowValue fuel .mapping
      return (key, value) :: (← flowEntries fuel false)
    | _ =>
      let key ← node fuel false false
      return (key, absent) :: (← flowEntries fuel false)

end

/-- The handles of tags that need no directive. -/
def defaultHandles : List (Text × Bytes) :=
  [(['!'], Utf8.encode ['!']), (['!', '!'], Utf8.encode "tag:yaml.org,2002:".toList)]

/-- Read the directives before a document: at most one version, 1.1 or 1.2, and each handle at most
once. -/
def directives? (version : Bool) (handles : List (Text × Bytes)) :
    List Token → Option (List (Text × Bytes) × List Token)
  | .versionDirective major minor :: rest =>
    if version || major ≠ 1 || !(minor = 1 || minor = 2) then none
    else directives? true handles rest
  | .tagDirective handle replacement :: rest =>
    if (handles.lookup handle).isSome then none
    else directives? version (handles ++ [(handle, replacement)]) rest
  | rest => some (handles, rest)

/-- The handles of a document and the tokens after its start; an explicit start may be left out if
there are no directives. -/
def start? (tokens : List Token) : Option (List (Text × Bytes) × Bool × List Token) :=
  match tokens with
  | .versionDirective .. :: _ | .tagDirective .. :: _ | .documentStart :: _ => do
    let (handles, rest) ← directives? false [] tokens
    match rest with
    | .documentStart :: rest => return (handles ++ defaultHandles, true, rest)
    | _ => none
  | _ => some (defaultHandles, false, tokens)

/-- Whether a document that was started ends without a node here. -/
def endsDocument : List Token → Bool
  | [] | .documentStart :: _ | .documentEnd :: _ => true
  | .versionDirective .. :: _ | .tagDirective .. :: _ => true
  | _ => false

/-- The node of the only document in some tokens; `none` within if there is no document. -/
def ofTokens? (tokens : List Token) : Option (Option Node) :=
  if tokens.isEmpty then some none
  else do
    let (handles, explicit, rest) ← start? tokens
    let (root, after) ←
      if explicit && endsDocument rest then pure (absent, rest)
      else do
        let (root, reading) ← (node (4 * tokens.length + 4) true false).run ⟨rest, handles, [], 0⟩
        pure (root, reading.tokens)
    if (after.dropWhile (· = .documentEnd)).isEmpty then return some root else none

end Node

end LaunchOptions.Yaml
