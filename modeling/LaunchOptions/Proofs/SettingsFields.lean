import LaunchOptions.Proofs.Documents
import Mathlib.Data.List.Forall2

/-!
# Fields of settings

Fields describe settings: each key is that of a setting, its value says what the setting is, and a
setting without a key keeps its default. Reading the fields one after another comes to the settings
that they describe, in whichever order they stand.
-/

namespace LaunchOptions.Settings

/-! ### What values say -/

namespace Format

/-- The value is a text. A TOML moment counts as its text, and YAML tags do not count. -/
def IsText : (format : Format) → format.Value → Text → Prop
  | .toml, v, t => v = Toml.Value.string t ∨ ∃ m, v = Toml.Value.moment m ∧ m.text = t
  | .yaml, v, t => Yaml.Value.untagged v = .string t

/-- The value is a list of some items. A YAML null counts as a list of none, and tags do not
count. -/
def IsList : (format : Format) → format.Value → List format.Value → Prop
  | .toml, v, items => v = Toml.Value.array items
  | .yaml, v, items =>
    Yaml.Value.untagged v = .sequence items ∨ Yaml.Value.untagged v = .null ∧ items = []

/-- The value is a YAML null without a tag. -/
def IsNull : (format : Format) → format.Value → Prop
  | .toml, _ => False
  | .yaml, v => v = Yaml.Value.null

/-- A text as a value. -/
def text : (format : Format) → Text → format.Value
  | .toml, t => Toml.Value.string t
  | .yaml, t => Yaml.Value.string t

/-- The value is a mapping with some entries, in their order. YAML tags do not count. -/
def IsMapping : (format : Format) → format.Value → List (format.Value × format.Value) → Prop
  | .toml, v, entries =>
    ∃ fields : List (Text × Value .toml), v = Toml.Value.table fields ∧
      entries = fields.map fun e ↦ (text .toml e.1, e.2)
  | .yaml, v, entries => Yaml.Value.untagged v = .mapping entries

/-- The entry of a mapping has a text as its key. -/
def IsField (format : Format) (entry : format.Value × format.Value)
    (field : Text × format.Value) : Prop :=
  format.IsText entry.1 field.1 ∧ entry.2 = field.2

/-- A list of texts as a value. -/
def texts : (format : Format) → List Text → format.Value
  | .toml, ts => Toml.Value.array (ts.map .string)
  | .yaml, ts => Yaml.Value.sequence (ts.map .string)

/-- A mapping of texts as a value. -/
def mapping : (format : Format) → List (Text × format.Value) → format.Value
  | .toml, fields => Toml.Value.table fields
  | .yaml, fields => Yaml.Value.mapping (fields.map fun e ↦ (.string e.1, e.2))

/-- How the values of a format are read. -/
def reading : (format : Format) → Reading format.Value
  | .toml => Layout.toml
  | .yaml => Layout.yaml

end Format

/-- What a setting is. -/
inductive Content where
  | names (names : List Text)
  | version (version : Option Text)

/-- What a setting is in some settings. -/
def get (settings : Settings) : Setting → Content
  | .overrideVariables => .names settings.overrideVariables
  | .substitutionVariables => .names settings.substitutionVariables
  | .javaVersion => .version settings.javaVersion

/-- A value says what a setting is. -/
def Says (format : Format) (v : format.Value) : Content → Prop
  | .names names => ∃ items, format.IsList v items ∧ items.Forall₂ format.IsText names
  | .version (some t) => format.IsText v t
  | .version none => format.IsNull v

/-- A value is of the type of a setting. -/
def Fits (format : Format) (v : format.Value) (setting : Setting) : Prop :=
  ∃ settings : Settings, Says format v (settings.get setting)

/-- Some fields describe settings that were `start` before: each field is one setting, and the
others are left as they were. -/
structure Describes (format : Format) (fields : List (Text × format.Value))
    (start settings : Settings) : Prop where
  distinct : (fields.map Prod.fst).Nodup
  known : ∀ field ∈ fields, ∃ setting : Setting, field.1 = setting.key
  given : ∀ (setting : Setting) (v : format.Value), (setting.key, v) ∈ fields →
    Says format v (settings.get setting)
  omitted : ∀ setting : Setting, setting.key ∉ fields.map Prod.fst →
    settings.get setting = start.get setting

/-- Settings are known by what each setting is. -/
theorem ext_get {settings settings' : Settings}
    (h : ∀ setting, settings.get setting = settings'.get setting) : settings = settings' := by
  cases settings
  cases settings'
  rw [Settings.mk.injEq]
  exact ⟨Content.names.inj (h .overrideVariables), Content.names.inj (h .substitutionVariables),
    Content.version.inj (h .javaVersion)⟩

/-- Some settings with one of them taken from others. -/
def take (settings source : Settings) : Setting → Settings
  | .overrideVariables => { settings with overrideVariables := source.overrideVariables }
  | .substitutionVariables =>
    { settings with substitutionVariables := source.substitutionVariables }
  | .javaVersion => { settings with javaVersion := source.javaVersion }

private theorem get_take_self (settings source : Settings) (setting : Setting) :
    (settings.take source setting).get setting = source.get setting := by
  cases setting <;> rfl

private theorem get_take_of_ne (settings source : Settings) {setting other : Setting}
    (h : other ≠ setting) : (settings.take source setting).get other = settings.get other := by
  cases setting <;> cases other <;> first | rfl | exact absurd rfl h

private theorem take_take (settings source : Settings) (setting : Setting) :
    settings.take (settings.take source setting) setting = settings.take source setting := by
  cases setting <;> rfl

/-- Settings have different keys. -/
theorem key_injective {setting setting' : Setting} (h : setting.key = setting'.key) :
    setting = setting' := by
  have hfound := Setting.ofKey?_key setting
  rw [h, Setting.ofKey?_key] at hfound
  exact (Option.some.inj hfound).symm

/-- A key stands for the setting whose key it is. -/
theorem ofKey?_eq_some_iff {key : Text} {setting : Setting} :
    Setting.ofKey? key = some setting ↔ key = setting.key := by
  constructor
  · intro h
    have hkey := List.find?_some (show Setting.all.find? _ = some setting from h)
    exact (of_decide_eq_true hkey).symm
  · rintro rfl
    exact Setting.ofKey?_key setting

/-! ### Reading values -/

private theorem Layout.tomlText?_eq_some_iff {v : Toml.Value} {t : Text} :
    tomlText? v = some t ↔ v = .string t ∨ ∃ m, v = .moment m ∧ m.text = t := by
  unfold tomlText?
  split <;> simp_all

private theorem Layout.yamlText?_eq_some_iff {v : Yaml.Value} {t : Text} :
    yamlText? v = some t ↔ v.untagged = .string t := by
  unfold yamlText?
  split <;> simp_all

private theorem Layout.tomlItems?_eq_some_iff {v : Toml.Value} {items : List Toml.Value} :
    tomlItems? v = some items ↔ v = .array items := by
  unfold tomlItems?
  split <;> simp_all

private theorem Layout.yamlItems?_eq_some_iff {v : Yaml.Value} {items : List Yaml.Value} :
    yamlItems? v = some items ↔
      v.untagged = .sequence items ∨ v.untagged = .null ∧ items = [] := by
  unfold yamlItems?
  split
  · next heq => simp [heq, eq_comm]
  · next heq => simp [heq, eq_comm]
  · next hitems hnull =>
    refine iff_of_false nofun ?_
    rintro (h | ⟨h, -⟩)
    · exact hitems items h
    · exact hnull h

private theorem Layout.yamlIsNull_iff {v : Yaml.Value} : yamlIsNull v = true ↔ v = .null := by
  cases v <;> simp [yamlIsNull]

section Reading

variable {format : Format} {v : format.Value}

/-- A list is mapped if each of its items is. -/
theorem mapM_eq_some_iff {α β : Type} {f : α → Option β} {l : List α} {l' : List β} :
    l.mapM f = some l' ↔ l.Forall₂ (fun a b ↦ f a = some b) l' := by
  induction l generalizing l' with
  | nil => simp [eq_comm]
  | cons a rest ih =>
    rw [List.mapM_cons, List.forall₂_cons_left_iff]
    simp only [Option.pure_def, Option.bind_eq_bind, Option.bind_eq_some_iff, Option.some.injEq]
    constructor
    · rintro ⟨b, hb, rest', hrest, rfl⟩
      exact ⟨b, rest', hb, ih.mp hrest, rfl⟩
    · rintro ⟨b, rest', hb, hrest, rfl⟩
      exact ⟨b, hb, rest', ih.mpr hrest, rfl⟩

/-- The text of a value is read exactly. -/
theorem text?_eq_some_iff {t : Text} :
    format.reading.text? v = some t ↔ format.IsText v t := by
  cases format with
  | toml => exact Layout.tomlText?_eq_some_iff
  | yaml => exact Layout.yamlText?_eq_some_iff

/-- The items of a value are read exactly. -/
theorem items?_eq_some_iff {items : List format.Value} :
    format.reading.items? v = some items ↔ format.IsList v items := by
  cases format with
  | toml => exact Layout.tomlItems?_eq_some_iff
  | yaml => exact Layout.yamlItems?_eq_some_iff

/-- The test for absence is exact. -/
theorem isAbsent_iff : format.reading.isAbsent v = true ↔ format.IsNull v := by
  cases format with
  | toml => exact iff_of_false nofun id
  | yaml => exact Layout.yamlIsNull_iff

private theorem not_isText_of_isNull (h : format.IsNull v) (t : Text) : ¬ format.IsText v t := by
  cases format with
  | toml => exact h.elim
  | yaml =>
    subst h
    rintro ⟨⟩

/-- The names in a value are read exactly. -/
theorem names?_eq_some_iff {names : List Text} :
    format.reading.names? v = some names ↔ Says format v (.names names) := by
  unfold Reading.names? Says
  simp only [Option.bind_eq_bind, Option.bind_eq_some_iff, items?_eq_some_iff, mapM_eq_some_iff,
    text?_eq_some_iff]

/-- The version in a value is read exactly. -/
theorem optional?_eq_some_iff {version : Option Text} :
    format.reading.optional? v = some version ↔ Says format v (.version version) := by
  unfold Reading.optional?
  split
  · next h =>
    rw [isAbsent_iff] at h
    cases version with
    | none => exact iff_of_true rfl h
    | some t => exact iff_of_false nofun (not_isText_of_isNull h t)
  · next h =>
    rw [isAbsent_iff] at h
    cases version with
    | none => simpa [Says] using h
    | some t => simp [Says, text?_eq_some_iff]

private theorem exists_and_eq_iff {α : Type} {P : α → Prop} {set : α → Settings}
    {part : Settings → α} (h : ∀ a, part (set a) = a) {settings : Settings} :
    (∃ a, P a ∧ set a = settings) ↔ P (part settings) ∧ settings = set (part settings) := by
  constructor
  · rintro ⟨a, ha, rfl⟩
    rw [h]
    exact ⟨ha, rfl⟩
  · rintro ⟨hpart, hset⟩
    exact ⟨_, hpart, hset.symm⟩

/-- A value gives the setting that it says, and leaves the others as they are. -/
theorem give?_eq_some_iff {settings settings' : Settings} {setting : Setting} :
    format.reading.give? settings v setting = some settings' ↔
      Says format v (settings'.get setting) ∧ settings' = settings.take settings' setting := by
  cases setting with
  | overrideVariables =>
    simp only [Reading.give?, Option.map_eq_some_iff, names?_eq_some_iff]
    exact exists_and_eq_iff fun _ ↦ rfl
  | substitutionVariables =>
    simp only [Reading.give?, Option.map_eq_some_iff, names?_eq_some_iff]
    exact exists_and_eq_iff fun _ ↦ rfl
  | javaVersion =>
    simp only [Reading.give?, Option.map_eq_some_iff, optional?_eq_some_iff]
    exact exists_and_eq_iff fun _ ↦ rfl

/-! ### Reading fields -/

variable {fields rest : List (Text × format.Value)} {start settings : Settings} {key : Text}

/-- One more field in front gives its setting first. -/
theorem describes_cons_iff :
    Describes format ((key, v) :: rest) start settings ↔
      key ∉ rest.map Prod.fst ∧ ∃ setting : Setting, key = setting.key ∧
        ∃ next, format.reading.give? start v setting = some next ∧
          Describes format rest next settings := by
  constructor
  · rintro ⟨hdistinct, hknown, hgiven, homitted⟩
    obtain ⟨hfree, hrest⟩ := List.nodup_cons.mp hdistinct
    obtain ⟨setting, rfl⟩ := hknown (key, v) List.mem_cons_self
    have hcontent : Says format v (settings.get setting) := hgiven setting v List.mem_cons_self
    refine ⟨hfree, setting, rfl, start.take settings setting, ?_, hrest, ?_, ?_, ?_⟩
    · rw [give?_eq_some_iff, get_take_self, take_take]
      exact ⟨hcontent, rfl⟩
    · exact fun field hfield ↦ hknown field (List.mem_cons_of_mem _ hfield)
    · exact fun other w hw ↦ hgiven other w (List.mem_cons_of_mem _ hw)
    · intro other hother
      by_cases heq : other = setting
      · rw [heq, get_take_self]
      · rw [get_take_of_ne _ _ heq]
        refine homitted other fun hmem ↦ ?_
        rcases List.mem_cons.mp hmem with hkey | hmem
        · exact heq (key_injective hkey)
        · exact hother hmem
  · rintro ⟨hfree, setting, rfl, next, hnext, hdistinct, hknown, hgiven, homitted⟩
    obtain ⟨hcontent, htake⟩ := give?_eq_some_iff.mp hnext
    refine ⟨List.nodup_cons.mpr ⟨hfree, hdistinct⟩, ?_, ?_, ?_⟩
    · exact List.forall_mem_cons.mpr ⟨⟨setting, rfl⟩, hknown⟩
    · intro other w hw
      rcases List.mem_cons.mp hw with heq | hw
      · obtain ⟨hkey, rfl⟩ := Prod.mk.inj heq
        rw [key_injective hkey, homitted setting hfree]
        exact hcontent
      · exact hgiven other w hw
    · intro other hother
      obtain ⟨hne, hrest⟩ := not_or.mp (fun h ↦ hother (List.mem_cons.mpr h))
      rw [homitted other hrest, htake, get_take_of_ne]
      rintro rfl
      exact hne rfl

private theorem describes_nil_iff : Describes format [] start settings ↔ start = settings := by
  constructor
  · intro h
    exact ext_get fun setting ↦ (h.omitted setting (by simp)).symm
  · rintro rfl
    exact ⟨by simp, by simp, by simp, fun _ _ ↦ rfl⟩

/-- Fields that are read one after another come to the settings that they describe. -/
theorem foldlM_give?_eq_some_iff (h : (fields.map Prod.fst).Nodup) :
    fields.foldlM (fun settings e ↦ do
        format.reading.give? settings e.2 (← Setting.ofKey? e.1)) start = some settings ↔
      Describes format fields start settings := by
  induction fields generalizing start with
  | nil => simp [describes_nil_iff]
  | cons field rest ih =>
    obtain ⟨key, v⟩ := field
    obtain ⟨hfree, hrest⟩ := List.nodup_cons.mp h
    rw [describes_cons_iff, List.foldlM_cons]
    simp only [Option.bind_eq_bind] at ih ⊢
    simp only [Option.bind_eq_some_iff, ofKey?_eq_some_iff, ih hrest]
    constructor
    · rintro ⟨next, ⟨setting, hkey, hnext⟩, hdescribes⟩
      exact ⟨hfree, setting, hkey, next, hnext, hdescribes⟩
    · rintro ⟨-, setting, hkey, next, hnext, hdescribes⟩
      exact ⟨next, ⟨setting, hkey, hnext⟩, hdescribes⟩

/-- Fields give the settings that they describe, and no others. -/
theorem reading_settings?_eq_some_iff :
    format.reading.settings? fields = some settings ↔ Describes format fields {} settings := by
  unfold Reading.settings?
  split
  · next h => exact foldlM_give?_eq_some_iff h
  · next h => exact iff_of_false nofun fun hdescribes ↦ h hdescribes.distinct

/-- Entries are read as fields if their keys are texts. -/
theorem fields?_eq_some_iff {entries : List (format.Value × format.Value)}
    {fields : List (Text × format.Value)} :
    (entries.mapM fun e ↦ (format.reading.text? e.1).map (·, e.2)) = some fields ↔
      entries.Forall₂ format.IsField fields := by
  have hfield (e : format.Value × format.Value) (field : Text × format.Value) :
      (format.reading.text? e.1).map (·, e.2) = some field ↔ format.IsField e field := by
    simp only [Option.map_eq_some_iff, text?_eq_some_iff, Format.IsField, Prod.ext_iff]
    constructor
    · rintro ⟨t, ht, rfl, hv⟩
      exact ⟨ht, hv⟩
    · rintro ⟨ht, hv⟩
      exact ⟨_, ht, rfl, hv⟩
  rw [mapM_eq_some_iff]
  simp only [hfield]

/-- A text that is written is read as itself. -/
theorem isText_text_iff {t u : Text} : format.IsText (format.text t) u ↔ t = u := by
  cases format with
  | toml =>
    constructor
    · rintro (h | ⟨m, h, -⟩)
      · exact Toml.Value.string.inj h
      · cases h
    · rintro rfl
      exact .inl rfl
  | yaml => exact ⟨fun h ↦ Yaml.Value.string.inj h, congrArg Yaml.Value.string⟩

/-- Keys that are written as texts are read as them. -/
theorem forall₂_isField_text_iff {fields fields' : List (Text × format.Value)} :
    (fields.map fun e ↦ (format.text e.1, e.2)).Forall₂ format.IsField fields' ↔
      fields = fields' := by
  simp only [List.forall₂_map_left_iff, Format.IsField, isText_text_iff, ← Prod.ext_iff,
    List.forall₂_eq_eq_eq]

/-- A value is one text at most. -/
theorem isText_unique {v : format.Value} {t u : Text} (h : format.IsText v t)
    (h' : format.IsText v u) : t = u := by
  rw [← text?_eq_some_iff] at h h'
  exact Option.some.inj (h.symm.trans h')

private theorem isList_texts (names : List Text) :
    format.IsList (format.texts names) (names.map format.text) := by
  cases format with
  | toml => rfl
  | yaml => exact .inl rfl

/-- Names that are written are read as themselves. -/
theorem says_texts (names : List Text) : Says format (format.texts names) (.names names) := by
  refine ⟨_, isList_texts names, ?_⟩
  simp only [List.forall₂_map_left_iff, isText_text_iff, List.forall₂_eq_eq_eq]

/-- Each entry is read as one of the fields. -/
theorem exists_field_of_mem {entries : List (format.Value × format.Value)}
    {fields : List (Text × format.Value)} (h : entries.Forall₂ format.IsField fields)
    {entry : format.Value × format.Value} (hentry : entry ∈ entries) :
    ∃ field ∈ fields, format.IsField entry field := by
  induction h with
  | nil => cases hentry
  | cons hfirst _ ih =>
    rcases List.mem_cons.mp hentry with rfl | hrest
    · exact ⟨_, List.mem_cons_self, hfirst⟩
    · obtain ⟨field, hmem, hfield⟩ := ih hrest
      exact ⟨field, List.mem_cons_of_mem _ hmem, hfield⟩

end Reading

end LaunchOptions.Settings
