import LaunchOptions.Settings.Load

/-!
# Documents of settings files

A settings file holds a document of its format. The formats have values of different kinds, of which
the same is asked: the document in a text, the value of a key, and the settings.
-/

namespace LaunchOptions.Settings.Format

/-- The values of a format, one of which is a document. -/
def Value : Format → Type
  | .toml => Toml.Value
  | .yaml => Yaml.Value

/-- The extensions of the files of a format, in lower case. -/
def extensions : Format → List Text
  | .toml => ["toml".toList]
  | .yaml => ["yaml".toList, "yml".toList]

/-- The document in a text. -/
def parse? : (format : Format) → Text → Option format.Value
  | .toml, t => Toml.parse? t
  | .yaml, t => Yaml.parse? t

/-- The value of a string key of a mapping. -/
def field? (key : Text) : (format : Format) → format.Value → Option format.Value
  | .toml, v => Toml.Value.field? key v
  | .yaml, v => Yaml.Value.field? key v

/-- The settings of a document. -/
def settings? : (format : Format) → format.Value → Option Settings
  | .toml, document => ofToml? document
  | .yaml, document => ofYaml? document

/-- A text says about settings what its document does. -/
theorem document?_eq (format : Format) (t : Text) :
    format.document? t = (format.parse? t).map format.settings? := by
  cases format <;> rfl

/-- Each extension stands for one format. -/
theorem ofExtension?_eq_some_iff {e : Text} {format : Format} :
    ofExtension? e = some format ↔ e ∈ format.extensions := by
  unfold ofExtension?
  split
  · next htoml =>
    subst htoml
    cases format <;> decide
  split
  · next hyaml => rcases hyaml with rfl | rfl <;> cases format <;> decide
  · next htoml hyaml =>
    refine iff_of_false nofun ?_
    cases format with
    | toml => simpa only [extensions, List.mem_singleton] using htoml
    | yaml => simpa only [extensions, List.mem_cons, List.not_mem_nil, or_false] using hyaml

/-- There are three extensions in all. -/
theorem forall_not_mem_extensions_iff {e : Text} :
    (∀ format : Format, e ∉ format.extensions) ↔ e ∉ ["toml", "yaml", "yml"].map String.toList := by
  constructor
  · intro h hmem
    rcases List.mem_cons.mp hmem with he | hmem
    · exact h .toml (he ▸ List.mem_cons_self)
    · exact h .yaml hmem
  · intro h format hmem
    cases format with
    | toml => exact h (List.mem_singleton.mp hmem ▸ List.mem_cons_self)
    | yaml => exact h (List.mem_cons_of_mem _ hmem)

end LaunchOptions.Settings.Format
