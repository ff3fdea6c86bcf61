import LaunchOptions.Settings.Basic
import LaunchOptions.Toml.Document
import LaunchOptions.Yaml.Document

/-!
# Layouts of settings

Settings are the keys of a document, or of the value of its `jvm-options` key. In TOML the settings
can also stand in an array, in their order. In YAML tags do not count, and a null is an empty list,
an absent version or settings none of which is given.

Specification: `SPEC_FULL.md`, section 4.6.
-/

namespace LaunchOptions.Settings

/-- The text that a TOML value is; a moment counts as its text. -/
def Layout.tomlText? : Toml.Value → Option Text
  | .string t => some t
  | .moment m => some m.text
  | _ => none

/-- The items of the list that a TOML value is. -/
def Layout.tomlItems? : Toml.Value → Option (List Toml.Value)
  | .array items => some items
  | _ => none

/-- The values of settings in TOML. -/
def Layout.toml : Reading Toml.Value := ⟨tomlText?, tomlItems?, fun _ ↦ false⟩

/-- The text that a YAML value is. -/
def Layout.yamlText? (v : Yaml.Value) : Option Text :=
  match v.untagged with
  | .string t => some t
  | _ => none

/-- The items of the list that a YAML value is. -/
def Layout.yamlItems? (v : Yaml.Value) : Option (List Yaml.Value) :=
  match v.untagged with
  | .sequence items => some items
  | .null => some []
  | _ => none

/-- Whether a YAML value is a null without a tag. -/
def Layout.yamlIsNull : Yaml.Value → Bool
  | .null => true
  | _ => false

/-- The values of settings in YAML. -/
def Layout.yaml : Reading Yaml.Value := ⟨yamlText?, yamlItems?, yamlIsNull⟩

/-- The settings of a TOML document. -/
def ofToml? (document : Toml.Value) : Option Settings :=
  match (document.field? sectionKey).getD document with
  | .table entries => Layout.toml.settings? entries
  | .array items =>
    if items.length ≤ Setting.all.length then
      Layout.toml.settings? ((Setting.all.map Setting.key).zip items)
    else none
  | _ => none

/-- The settings of a YAML document. -/
def ofYaml? (document : Yaml.Value) : Option Settings :=
  match ((document.field? sectionKey).getD document).untagged with
  | .mapping entries => do
    Layout.yaml.settings? (← entries.mapM fun (k, v) ↦ (Layout.yamlText? k).map (·, v))
  | .null => some {}
  | _ => none

end LaunchOptions.Settings
