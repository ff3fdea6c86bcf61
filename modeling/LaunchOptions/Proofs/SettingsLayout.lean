import LaunchOptions.Proofs.SettingsFields
import LaunchOptions.Proofs.SettingsLoading

/-!
# Settings in every layout

Settings are described by the fields of a mapping. The mapping is the document, or the value of one
key of it, and then the other keys do not count.
-/

namespace LaunchOptions.Settings

/-! ### Documents -/

private theorem ofToml?_congr {document document' : Toml.Value}
    (h : (document.field? sectionKey).getD document =
      (document'.field? sectionKey).getD document') : ofToml? document = ofToml? document' := by
  rw [ofToml?, ofToml?, h]

private theorem ofYaml?_congr {document document' : Yaml.Value}
    (h : (document.field? sectionKey).getD document =
      (document'.field? sectionKey).getD document') : ofYaml? document = ofYaml? document' := by
  rw [ofYaml?, ofYaml?, h]

private theorem ofToml?_table {fields : List (Text × Toml.Value)}
    (h : (Toml.Value.table fields).field? sectionKey = none) :
    ofToml? (.table fields) = Layout.toml.settings? fields := by
  rw [ofToml?, h]
  rfl

private theorem ofYaml?_of_mapping {v : Yaml.Value} {entries : List (Yaml.Value × Yaml.Value)}
    (hentries : v.untagged = .mapping entries) (h : v.field? sectionKey = none) :
    ofYaml? v = (entries.mapM fun e ↦ (Layout.yamlText? e.1).map (·, e.2)).bind
      Layout.yaml.settings? := by
  rw [ofYaml?, h, Option.getD_none, hentries]
  rfl

section Document

variable {format : Format} {document document' part : format.Value} {settings : Settings}

/-- The settings of a document are those of its section, or of all of it if it has none. -/
theorem settings?_congr
    (h : (format.field? sectionKey document).getD document =
      (format.field? sectionKey document').getD document') :
    format.settings? document = format.settings? document' := by
  cases format with
  | toml => exact ofToml?_congr h
  | yaml => exact ofYaml?_congr h

/-- If a document has a section, that alone counts. -/
theorem settings?_eq_of_field? (h : format.field? sectionKey document = some part)
    (h' : format.field? sectionKey document' = some part) :
    format.settings? document = format.settings? document' := by
  apply settings?_congr
  rw [h, h']
  rfl

/-- A section that has no section of its own is read as a document of its own. -/
theorem settings?_eq_part (h : format.field? sectionKey document = some part)
    (hpart : format.field? sectionKey part = none) :
    format.settings? document = format.settings? part := by
  apply settings?_congr
  rw [h, hpart]
  rfl

/-- A document without a section has the settings that its fields describe. -/
theorem settings?_eq_some_iff {entries : List (format.Value × format.Value)}
    (hentries : format.IsMapping document entries)
    (hsection : format.field? sectionKey document = none) :
    format.settings? document = some settings ↔
      ∃ fields, entries.Forall₂ format.IsField fields ∧ Describes format fields {} settings := by
  cases format with
  | toml =>
    obtain ⟨fields, rfl, rfl⟩ := hentries
    have hread : Format.settings? .toml (Toml.Value.table fields) =
        (Format.reading .toml).settings? fields := ofToml?_table hsection
    rw [hread, reading_settings?_eq_some_iff]
    simp only [forall₂_isField_text_iff, exists_eq_left']
  | yaml =>
    have hread : Format.settings? .yaml document =
        (entries.mapM fun e ↦ ((Format.reading .yaml).text? e.1).map (·, e.2)).bind
          (Format.reading .yaml).settings? := ofYaml?_of_mapping hentries hsection
    rw [hread, Option.bind_eq_some_iff]
    simp only [fields?_eq_some_iff, reading_settings?_eq_some_iff]

/-- A field with a key that is no setting's, or with a value of another type than its setting,
spoils the whole document. -/
theorem settings?_eq_none {entries : List (format.Value × format.Value)}
    (hentries : format.IsMapping document entries)
    (hsection : format.field? sectionKey document = none)
    (h : (∃ e ∈ entries, ∃ key, format.IsText e.1 key ∧ ∀ setting : Setting, key ≠ setting.key) ∨
      ∃ e ∈ entries, ∃ setting : Setting, format.IsText e.1 setting.key ∧
        ¬ Fits format e.2 setting) : format.settings? document = none := by
  rw [Option.eq_none_iff_forall_ne_some]
  intro settings hsettings
  obtain ⟨fields, hfields, hdescribes⟩ := (settings?_eq_some_iff hentries hsection).mp hsettings
  have hfield {e : format.Value × format.Value} {key : Text} (he : e ∈ entries)
      (hkey : format.IsText e.1 key) : (key, e.2) ∈ fields := by
    obtain ⟨field, hmem, ht, hv⟩ := exists_field_of_mem hfields he
    rwa [isText_unique hkey ht, hv]
  rcases h with ⟨e, he, key, hkey, hno⟩ | ⟨e, he, setting, hkey, hno⟩
  · obtain ⟨setting, hsetting⟩ := hdescribes.known _ (hfield he hkey)
    exact hno setting hsetting
  · exact hno ⟨settings, hdescribes.given setting _ (hfield he hkey)⟩

end Document

/-! ### Settings that are given -/

/-- Some of the settings, each with what it is. -/
structure Given where
  overrideVariables : Option (List Text) := none
  substitutionVariables : Option (List Text) := none
  javaVersion : Option Text := none

namespace Given

variable {format : Format} {given : Given}

/-- The settings that are given, and the defaults of the others. -/
def settings (given : Given) : Settings where
  overrideVariables := given.overrideVariables.getD ({} : Settings).overrideVariables
  substitutionVariables := given.substitutionVariables.getD ({} : Settings).substitutionVariables
  javaVersion := given.javaVersion

/-- How a setting is written, if it is given. -/
def value? (given : Given) (format : Format) : Setting → Option format.Value
  | .overrideVariables => given.overrideVariables.map format.texts
  | .substitutionVariables => given.substitutionVariables.map format.texts
  | .javaVersion => given.javaVersion.map format.text

/-- The settings that are given under their keys. -/
def fields (given : Given) (format : Format) : List (Text × format.Value) :=
  Setting.all.filterMap fun setting ↦ (given.value? format setting).map (setting.key, ·)

/-- The fields are those of the settings that are given. -/
theorem mem_fields_iff {key : Text} {v : format.Value} :
    (key, v) ∈ given.fields format ↔
      ∃ setting : Setting, key = setting.key ∧ given.value? format setting = some v := by
  have hall : ∀ setting, setting ∈ Setting.all := by
    intro setting
    cases setting <;> decide
  simp only [fields, List.mem_filterMap, Option.map_eq_some_iff, Prod.mk.injEq, hall, true_and]
  constructor
  · rintro ⟨setting, w, hw, rfl, rfl⟩
    exact ⟨setting, rfl, hw⟩
  · rintro ⟨setting, rfl, hv⟩
    exact ⟨setting, v, hv, rfl, rfl⟩

/-- No setting is given twice. -/
theorem nodup_fields (given : Given) (format : Format) :
    ((given.fields format).map Prod.fst).Nodup := by
  have hall : Setting.all.Nodup := by decide
  rw [List.Nodup, List.pairwise_map, fields, List.pairwise_filterMap]
  refine hall.imp fun hne field hfield field' hfield' hkey ↦ hne ?_
  obtain ⟨v, -, rfl⟩ := Option.map_eq_some_iff.mp hfield
  obtain ⟨v', -, rfl⟩ := Option.map_eq_some_iff.mp hfield'
  exact key_injective hkey

/-- What is written says what is given. -/
theorem says_value? {setting : Setting} {v : format.Value}
    (h : given.value? format setting = some v) : Says format v (given.settings.get setting) := by
  cases setting with
  | overrideVariables =>
    obtain ⟨names, hnames, rfl⟩ := Option.map_eq_some_iff.mp h
    simpa [get, settings, hnames] using says_texts names
  | substitutionVariables =>
    obtain ⟨names, hnames, rfl⟩ := Option.map_eq_some_iff.mp h
    simpa [get, settings, hnames] using says_texts names
  | javaVersion =>
    obtain ⟨t, ht, rfl⟩ := Option.map_eq_some_iff.mp h
    rw [get, settings, ht]
    exact isText_text_iff.mpr rfl

private theorem get_settings_of_value?_eq_none {setting : Setting}
    (h : given.value? format setting = none) :
    given.settings.get setting = ({} : Settings).get setting := by
  cases setting with
  | overrideVariables => simp [get, settings, Option.map_eq_none_iff.mp h]
  | substitutionVariables => simp [get, settings, Option.map_eq_none_iff.mp h]
  | javaVersion => simp [get, settings, Option.map_eq_none_iff.mp h]

/-- What is given is described by its fields, in whichever order they stand. -/
theorem describes_of_perm {fields : List (Text × format.Value)}
    (h : fields.Perm (given.fields format)) : Describes format fields {} given.settings where
  distinct := (h.map Prod.fst).nodup_iff.mpr (given.nodup_fields format)
  known := by
    intro field hfield
    obtain ⟨setting, hkey, -⟩ := mem_fields_iff.mp (h.subset hfield)
    exact ⟨setting, hkey⟩
  given := by
    intro setting v hv
    obtain ⟨other, hkey, hvalue⟩ := mem_fields_iff.mp (h.subset hv)
    rw [key_injective hkey]
    exact says_value? hvalue
  omitted := by
    intro setting hfree
    cases hvalue : given.value? format setting with
    | none => exact get_settings_of_value?_eq_none hvalue
    | some v =>
      have hmem : (setting.key, v) ∈ fields :=
        h.symm.subset (mem_fields_iff.mpr ⟨setting, rfl, hvalue⟩)
      exact absurd (List.mem_map_of_mem hmem) hfree

end Given

section Layouts

variable {format : Format} {given : Given} {fields : List (Text × format.Value)}

private theorem isMapping_mapping (fields : List (Text × format.Value)) :
    format.IsMapping (format.mapping fields) (fields.map fun e ↦ (format.text e.1, e.2)) := by
  cases format with
  | toml => exact ⟨fields, rfl, rfl⟩
  | yaml => rfl

private theorem field?_mapping_eq_none {key : Text} (h : key ∉ fields.map Prod.fst) :
    format.field? key (format.mapping fields) = none := by
  cases format with
  | toml =>
    refine List.lookup_eq_none_iff.mpr fun e he ↦ ?_
    exact bne_iff_ne.mpr fun heq ↦ h (heq ▸ List.mem_map_of_mem he)
  | yaml =>
    refine Option.map_eq_none_iff.mpr (List.find?_eq_none.mpr fun e he ↦ ?_)
    obtain ⟨field, hfield, rfl⟩ := List.mem_map.mp he
    exact fun heq ↦ h (of_decide_eq_true heq ▸ List.mem_map_of_mem hfield)

private theorem key_ne_sectionKey (setting : Setting) : setting.key ≠ sectionKey := by
  cases setting <;> decide

private theorem field?_sectionKey_of_perm (h : fields.Perm (given.fields format)) :
    format.field? sectionKey (format.mapping fields) = none := by
  refine field?_mapping_eq_none fun hmem ↦ ?_
  obtain ⟨⟨key, v⟩, hfield, rfl⟩ := List.mem_map.mp hmem
  obtain ⟨setting, hkey, -⟩ := Given.mem_fields_iff.mp (h.subset hfield)
  exact key_ne_sectionKey setting hkey.symm

/-- A mapping of what is given is read as it is given. -/
theorem settings?_of_perm (h : fields.Perm (given.fields format)) :
    format.settings? (format.mapping fields) = some given.settings := by
  rw [settings?_eq_some_iff (isMapping_mapping fields) (field?_sectionKey_of_perm h)]
  exact ⟨fields, forall₂_isField_text_iff.mpr rfl, Given.describes_of_perm h⟩

end Layouts

/-- Loading a file of a format comes to the settings of its document, or is refused for them. -/
theorem load_eq_iff_settings? {format : Format} {view : FileView} {file : Path} {t e : Text}
    {document : format.Value} (hread : view.read file = .ok (Utf8.encode t))
    (he : HasLowerExtension file e) (hformat : e ∈ format.extensions)
    (hparse : format.parse? t = some document) :
    (∀ settings, load view (some file) = .ok settings ↔
      format.settings? document = some settings) ∧
    (load view (some file) = .error (.unfit format (view.settingsFile file)) ↔
      format.settings? document = none) := by
  rw [load_eq_ofText hread he hformat]
  cases h : format.settings? document with
  | none => simp [ofText_of_settings?_eq_none hparse h]
  | some settings => simp [ofText_of_settings?_eq_some hparse h]

/-! ### A day among names -/

/-- Whether a value is a table with one key and a list of one moment for it. -/
def isMomentList (key : Text) (m : Toml.Moment) : Toml.Value → Bool
  | .table [(k, .array [.moment m'])] => k = key ∧ m' = m
  | _ => false

private theorem eq_of_isMomentList {key : Text} {m : Toml.Moment} {v : Option Toml.Value}
    (h : v.any (isMomentList key m) = true) : v = some (.table [(key, .array [.moment m])]) := by
  obtain ⟨v, rfl, hv⟩ := Option.any_eq_true _ _ |>.mp h
  unfold isMomentList at hv
  split at hv
  · obtain ⟨rfl, rfl⟩ := of_decide_eq_true hv
    rfl
  · cases hv

/-- A day without a time. -/
def someDay : Toml.Moment := { date? := some ⟨1979, 5, 27⟩ }

private theorem parse?_someDay :
    Format.parse? .toml "override_env_vars = [1979-05-27]\n".toList =
      some (Toml.Value.table [(Setting.overrideVariables.key, .array [.moment someDay])]) :=
  eq_of_isMomentList (by decide +kernel)

/-! ### Layouts -/

/-- Settings are read the same in every layout. What is given, in whichever order it is written and
with the document or its section for it, is read as given, and what is not keeps its default. If a
document has a section, nothing else in it counts, and a section counts as much as a document would.
A mapping without a section has exactly the settings that its fields describe, so that a key of no
setting, or a value of another type than its setting, refuses the whole; a moment of TOML is a text,
and tags of YAML count only around a null. A refused document is the error of its format when it is
loaded, and no settings. -/
theorem settings?_everyLayout (format : Format) :
    (∀ (given : Given) (fields : List (Text × format.Value)),
      fields.Perm (given.fields format) →
        format.settings? (format.mapping fields) = some given.settings ∧
        ∀ document, format.field? sectionKey document = some (format.mapping fields) →
          format.settings? document = some given.settings) ∧
    (∀ document part : format.Value, format.field? sectionKey document = some part →
      (∀ document', format.field? sectionKey document' = some part →
        format.settings? document' = format.settings? document) ∧
      (format.field? sectionKey part = none →
        format.settings? document = format.settings? part)) ∧
    (∀ (document : format.Value) (entries : List (format.Value × format.Value)),
      format.IsMapping document entries → format.field? sectionKey document = none →
        (∀ settings, format.settings? document = some settings ↔
          ∃ fields, entries.Forall₂ format.IsField fields ∧ Describes format fields {} settings) ∧
        ((∃ entry ∈ entries, ∃ key, format.IsText entry.1 key ∧
            ∀ setting : Setting, key ≠ setting.key) ∨
          (∃ entry ∈ entries, ∃ setting : Setting, format.IsText entry.1 setting.key ∧
            ¬ Fits format entry.2 setting) →
          format.settings? document = none)) ∧
    ∀ (view : FileView) (file : Path) (t e : Text) (document : format.Value),
      view.read file = .ok (Utf8.encode t) → HasLowerExtension file e → e ∈ format.extensions →
      format.parse? t = some document →
        (∀ settings, load view (some file) = .ok settings ↔
          format.settings? document = some settings) ∧
        (load view (some file) = .error (.unfit format (view.settingsFile file)) ↔
          format.settings? document = none) := by
  refine ⟨?_, ?_, ?_, fun _ _ _ _ _ ↦ load_eq_iff_settings?⟩
  · intro given fields hperm
    have hfields := settings?_of_perm hperm
    refine ⟨hfields, fun document hdocument ↦ ?_⟩
    rw [settings?_eq_part hdocument (field?_sectionKey_of_perm hperm), hfields]
  · intro document part hpart
    exact ⟨fun document' hpart' ↦ settings?_eq_of_field? hpart' hpart, settings?_eq_part hpart⟩
  · intro document entries hentries hsection
    exact ⟨fun settings ↦ settings?_eq_some_iff hentries hsection,
      settings?_eq_none hentries hsection⟩

/-- What stands beside a section does not count, even where the section is refused; a key of no
setting is refused in a document, and a day in a list of names is not. -/
theorem settings?_everyLayout_sibling :
    Format.settings? .yaml (Yaml.Value.mapping [(.string "java_version".toList, .boolean true),
        (.string "jvm-options".toList, .mapping [(.string "java_version".toList, .string ['8']),
          (.string "override_env_vars".toList, .sequence [.string ['A']])])]) =
      some { overrideVariables := [['A']], javaVersion := some ['8'] } ∧
    Format.settings? .yaml (Yaml.Value.mapping [(.string "java_version".toList, .null),
        (.string "jvm-options".toList, .boolean true)]) =
      Format.settings? .yaml (Yaml.Value.mapping [(.string "jvm-options".toList, .boolean true)]) ∧
    Format.settings? .yaml (Yaml.Value.mapping [(.string "java".toList, .null)]) = none ∧
    load (.ofText "override_env_vars = [1979-05-27]\n".toList) (some ⟨"launch.toml".toList⟩) =
      .ok { overrideVariables := ["1979-05-27".toList] } := by
  refine ⟨?_, ?_, ?_, ?_⟩
  · have hgiven := (settings?_everyLayout .yaml).1 ⟨some [['A']], none, some ['8']⟩ _ (.swap _ _ [])
    refine hgiven.2 _ ?_
    rfl
  · have hsection := (settings?_everyLayout .yaml).2.1
      (Yaml.Value.mapping [(.string "jvm-options".toList, .boolean true)]) _ rfl
    refine hsection.1 _ ?_
    rfl
  · have hmapping := (settings?_everyLayout .yaml).2.2.1
      (Yaml.Value.mapping [(.string "java".toList, .null)]) _ rfl rfl
    refine hmapping.2 (.inl ⟨_, List.mem_cons_self, "java".toList, rfl, ?_⟩)
    intro setting
    cases setting <;> decide
  · have hsmall : HasLowerExtension ⟨"launch.toml".toList⟩ "toml".toList :=
      hasLowerExtension_iff.mpr (by decide)
    exact (((settings?_everyLayout .toml).2.2.2 (.ofText _) _ _ _ _ rfl hsmall
      List.mem_cons_self parse?_someDay).1 _).mpr rfl

/-- A list of names can have an item that is no string and be read: a day in TOML, and a string with
a tag in YAML. -/
theorem not_forall_nonString_unfit :
    (¬ ∀ (view : FileView) (file : Path) (t : Text) (fields : List (Text × Toml.Value))
      (items : List Toml.Value), view.read file = .ok (Utf8.encode t) →
        HasLowerExtension file "toml".toList → Toml.parse? t = some (.table fields) →
        sectionKey ∉ fields.map Prod.fst →
        (Setting.overrideVariables.key, .array items) ∈ fields →
        (∃ item ∈ items, ∀ s, item ≠ .string s) →
        load view (some file) = .error (.unfit .toml (view.settingsFile file))) ∧
    ¬ ∀ items : List Yaml.Value, (∃ item ∈ items, ∀ s, item ≠ .string s) →
        ofYaml? (.mapping [(.string Setting.overrideVariables.key, .sequence items)]) = none := by
  constructor
  · intro h
    have hsmall : HasLowerExtension ⟨"launch.toml".toList⟩ "toml".toList :=
      hasLowerExtension_iff.mpr (by decide)
    have herror := h (.ofText "override_env_vars = [1979-05-27]\n".toList) _ _
      [(Setting.overrideVariables.key, .array [.moment someDay])] [.moment someDay] rfl hsmall
      parse?_someDay (by decide) List.mem_cons_self
      ⟨_, List.mem_cons_self, fun _ ↦ Toml.Value.noConfusion⟩
    have hunfit := (load_eq_iff_settings? rfl hsmall List.mem_cons_self parse?_someDay).2.mp herror
    cases hunfit
  · intro h
    have hnone := h [.tagged ['t'] (.string ['x'])]
      ⟨_, List.mem_cons_self, fun _ ↦ Yaml.Value.noConfusion⟩
    cases hnone

end LaunchOptions.Settings
