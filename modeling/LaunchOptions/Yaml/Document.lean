import LaunchOptions.Yaml.Lexer
import LaunchOptions.Yaml.Node
import LaunchOptions.Yaml.PlainValue

/-!
# YAML documents

The value of a text that holds one YAML document, or none, which means null. A mapping with one key
twice has no value, nor has a document that is nested too deeply or expands too much by aliases.

Specification: `SPEC_FULL.md`, section 4.6 (settings files).
-/

namespace LaunchOptions.Yaml

/-- The tag of a type of YAML itself. -/
def coreTag (type : String) : Bytes := Utf8.encode ("tag:yaml.org,2002:" ++ type).toList

/-- The value of a scalar with a tag that is not one of the application. -/
def scalarValue? (tag : Option Bytes) (style : ScalarStyle) (t : Text) : Option Value :=
  match tag with
  | none => if style = .plain then plainValue? t else some (.string t)
  | some tag =>
    if tag = coreTag "bool" then (boolean? t).map .boolean
    else if tag = coreTag "int" then (integerValue? t).bind id
    else if tag = coreTag "float" then (real? t).map .number
    else if tag = coreTag "null" then (if isNull t then some .null else none)
    else if tag.head? = some 0x21 && style = .plain then plainValue? t
    else some (.string t)

/-- The tag of the application that some bytes are: what follows a `!`. -/
def applicationTag? : Bytes → Option Text
  | b :: rest => if b = 0x21 then Utf8.decode? (if rest.isEmpty then [b] else rest) else none
  | [] => none

namespace Node

/-- The properties of a node. -/
def properties? : Node → NodeProperties
  | .alias _ => {}
  | .scalar p .. | .sequence p _ | .mapping p _ => p

mutual

/-- The nodes that are anchored in a node, in the order of their beginnings. -/
def anchored : Node → List (AnchorId × Node)
  | .alias _ => []
  | .scalar p style t => anchorOf p (.scalar p style t)
  | .sequence p items => anchorOf p (.sequence p items) ++ anchoredItems items
  | .mapping p entries => anchorOf p (.mapping p entries) ++ anchoredEntries entries

/-- The nodes that are anchored in the items of a sequence. -/
def anchoredItems : List Node → List (AnchorId × Node)
  | [] => []
  | item :: rest => anchored item ++ anchoredItems rest

/-- The nodes that are anchored in the entries of a mapping. -/
def anchoredEntries : List (Node × Node) → List (AnchorId × Node)
  | [] => []
  | (key, value) :: rest => anchored key ++ anchored value ++ anchoredEntries rest

/-- A node with its anchor, if it has one. -/
def anchorOf (p : NodeProperties) (node : Node) : List (AnchorId × Node) :=
  match p.anchor with
  | some id => [(id, node)]
  | none => []

end

mutual

/-- The number of events that a node makes: one for a scalar or an alias, and two for a collection
besides those of what is in it. -/
def events : Node → Nat
  | .alias _ | .scalar .. => 1
  | .sequence _ items => 2 + eventsOfItems items
  | .mapping _ entries => 2 + eventsOfEntries entries

/-- The number of events of the items of a sequence. -/
def eventsOfItems : List Node → Nat
  | [] => 0
  | item :: rest => events item + eventsOfItems rest

/-- The number of events of the entries of a mapping. -/
def eventsOfEntries : List (Node × Node) → Nat
  | [] => 0
  | (key, value) :: rest => events key + events value + eventsOfEntries rest

end

/-- What the value of a node depends on besides the node. -/
structure Aliases where
  /-- The anchored nodes; the last one of an identity counts. -/
  anchored : List (AnchorId × Node)
  /-- How often aliases may be followed. -/
  limit : Nat

/-- A step of giving a node its value; the state is how often an alias was followed. -/
abbrev Evaluate := StateT Nat Option

/-- The node that an alias refers to, and any other node itself. -/
def follow (aliases : Aliases) : Node → Evaluate Node
  | .alias id => do
    modify (· + 1)
    if aliases.limit < (← get) then failure
    else
      match aliases.anchored.lookup id with
      | some node => return node
      | none => failure
  | node => return node

/-- The value of a mapping with some entries, whose values are given by `value`; each key is looked
at before its value. -/
def mappingValue (value : Node → Evaluate Value) (entries : List (Node × Node)) :
    Evaluate Value := do
  let entries ← entries.foldlM (fun before (keyNode, valueNode) ↦ do
    let k ← value keyNode
    if before.any (fun e ↦ Value.same k e.1) then failure
    else return before ++ [(k, ← value valueNode)]) []
  return .mapping entries

/-- The value of a node whose collections are nested at most `depth` deep. -/
def value (aliases : Aliases) (depth : Nat) (node : Node) : Evaluate Value := do
  let node ← follow aliases node
  let p := node.properties?
  let tag := p.tag.bind applicationTag?
  let v ← match node, depth with
    | .alias _, _ => failure
    | .scalar p style t, _ =>
      match scalarValue? (if tag.isSome then none else p.tag) style t with
      | some v => pure v
      | none => failure
    | .sequence .., 0 | .mapping .., 0 => failure
    | .sequence _ items, depth + 1 => pure (.sequence (← items.mapM (value aliases depth)))
    | .mapping _ entries, depth + 1 => mappingValue (value aliases depth) entries
  return match tag with
    | some tag => .tagged tag v
    | none => v

/-- The greatest depth of collections. -/
def maxDepth : Nat := 128

/-- How often aliases may be followed for each event of a document. -/
def aliasesPerEvent : Nat := 100

/-- The value of the root of a document. -/
def rootValue? (root : Node) : Option Value :=
  let aliases : Aliases := ⟨root.anchored.reverse, aliasesPerEvent * root.events⟩
  ((value aliases maxDepth root).run 0).map Prod.fst

end Node

/-- The value of a text that holds one document or none. -/
def parse? (t : Text) : Option Value := do
  match ← Node.ofTokens? (← tokens? t) with
  | some root => root.rootValue?
  | none => return .null

end LaunchOptions.Yaml
