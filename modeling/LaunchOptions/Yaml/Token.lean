import LaunchOptions.Yaml.Tag

/-!
# Tokens

The pieces that a YAML document is made of. Block collections have no brackets of their own: their
beginnings and ends are tokens that stand for changes of indentation.
-/

namespace LaunchOptions.Yaml

/-- How the text of a scalar is written. -/
inductive ScalarStyle where
  /-- Without quotes: the text may mean a number, a boolean or null. -/
  | plain
  /-- In quotes or as a block: the text is meant as it is. -/
  | literal
  deriving DecidableEq, Repr

/-- The two kinds of collections. -/
inductive CollectionKind where
  | sequence
  | mapping
  deriving DecidableEq, Repr

/-- A token. -/
inductive Token where
  /-- `%YAML` with a major and a minor version. -/
  | versionDirective (major minor : Nat)
  /-- `%TAG` with a handle and what it stands for. -/
  | tagDirective (handle : Text) (replacement : Bytes)
  | documentStart
  | documentEnd
  | blockStart (kind : CollectionKind)
  | blockEnd
  | flowStart (kind : CollectionKind)
  | flowEnd (kind : CollectionKind)
  | blockEntry
  | flowEntry
  | key
  | value
  | alias (name : Text)
  | anchor (name : Text)
  | tag (written : WrittenTag)
  | scalar (style : ScalarStyle) (text : Text)
  deriving DecidableEq, Repr

end LaunchOptions.Yaml
