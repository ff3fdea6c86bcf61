import LaunchOptions.FileView
import LaunchOptions.Settings.Layout

/-!
# Loading settings

Settings are loaded from a file whose extension names its format. Three things are tried in order,
and the first that fails is what is reported: to read the file as a text, to find the format, and to
read the text in that format.

Specification: `SPEC_FULL.md`, section 4.6.
-/

namespace LaunchOptions

namespace Settings

/-- A format of settings files. -/
inductive Format where
  | toml
  | yaml
  deriving DecidableEq, Repr

namespace Format

/-- The name of a format. -/
def name : Format → Text
  | .toml => "TOML".toList
  | .yaml => "YAML".toList

/-- The format of files with an extension in lower case. -/
def ofExtension? (extension : Text) : Option Format :=
  if extension = "toml".toList then some .toml
  else if extension = "yaml".toList ∨ extension = "yml".toList then some .yaml
  else none

/-- What the document in a text says about settings: nothing if the text is no document, and no
settings if the document does not fit them. -/
def document? : Format → Text → Option (Option Settings)
  | .toml, t => (Toml.parse? t).map ofToml?
  | .yaml, t => (Yaml.parse? t).map ofYaml?

end Format

end Settings

/-- A settings file: its path, and what comes of reading it. -/
structure SettingsFile where
  path : Path
  content : Except ReadFailure Bytes

/-- The settings file at a path. -/
def FileView.settingsFile (view : FileView) (path : Path) : SettingsFile := ⟨path, view.read path⟩

/-- The settings file at a path has that path. -/
@[simp] theorem FileView.path_settingsFile (view : FileView) (path : Path) :
    (view.settingsFile path).path = path := rfl

/-- The text of a settings file. -/
def SettingsFile.text? (file : SettingsFile) : Option Text :=
  match file.content with
  | .ok content => Utf8.decode? content
  | .error _ => none

/-- Why settings cannot be loaded from a file. -/
inductive SettingsError where
  /-- The file cannot be read, or is no text. -/
  | unreadable (file : SettingsFile)
  /-- No format has the extension, which is in lower case. -/
  | unsupportedExtension (extension : Text) (file : SettingsFile)
  /-- The text is no document of the format. -/
  | malformed (format : Settings.Format) (file : SettingsFile)
  /-- The document does not fit the settings. -/
  | unfit (format : Settings.Format) (file : SettingsFile)

namespace SettingsError

/-- The text of a failure. -/
def message : SettingsError → Text
  | .unreadable file => "Failed reading config file: ".toList ++ file.path.spelling
  | .unsupportedExtension extension file =>
    "Unsupported config extension '.".toList ++ extension ++ "' for file ".toList ++
      file.path.spelling
  | .malformed format file =>
    "Invalid ".toList ++ format.name ++ " syntax: ".toList ++ file.path.spelling
  | .unfit format file =>
    "Invalid ".toList ++ format.name ++ " config: ".toList ++ file.path.spelling

/-- The causes behind a failure, given what the reader of a format says of a text that it refuses,
as no document or as one that does not fit. -/
def causes (complaint : Settings.Format → Text → Text) : SettingsError → List Text
  | .unreadable file =>
    match file.content with
    | .ok _ => ["stream did not contain valid UTF-8".toList]
    | .error cause => [cause.message]
  | .unsupportedExtension _ _ => []
  | .malformed format file | .unfit format file => [complaint format (file.text?.getD [])]

end SettingsError

namespace Settings

/-- The extension of a file, whose capital letters of ASCII do not count. -/
def extensionOf (file : Path) : Text := file.extension.map Char.toLower

/-- The settings in the text of a file. -/
def ofText (format : Format) (file : SettingsFile) (t : Text) : Except SettingsError Settings :=
  match format.document? t with
  | none => .error (.malformed format file)
  | some none => .error (.unfit format file)
  | some (some settings) => .ok settings

/-- The settings of a file. -/
def ofFile (file : SettingsFile) : Except SettingsError Settings :=
  match file.text? with
  | none => .error (.unreadable file)
  | some t =>
    match Format.ofExtension? (extensionOf file.path) with
    | none => .error (.unsupportedExtension (extensionOf file.path) file)
    | some format => ofText format file t

/-- The settings of a file, or the defaults where no file is given. -/
def load (view : FileView) : Option Path → Except SettingsError Settings
  | none => .ok {}
  | some path => ofFile (view.settingsFile path)

end Settings

end LaunchOptions
