import LaunchOptions.Proofs.Documents
import LaunchOptions.Proofs.MaximalStretches
import LaunchOptions.Proofs.Pieces
import Mathlib.Data.List.TakeWhile

/-!
# What loading settings comes to

A settings file is first read as a text, then its extension is looked at, then its text is read in
the format of the extension, and then the document is taken for settings. The first of these that
fails is reported. Capital letters of ASCII do not count in an extension.
-/

namespace LaunchOptions

/-- The file name has a dot and then `e`, in which there is no dot. The name does not begin with
that dot. -/
def Path.HasExtension (p : Path) (e : Text) : Prop :=
  ∃ stem, p.fileName? = some (stem ++ '.' :: e) ∧ stem ≠ [] ∧ '.' ∉ e

/-- The last dot of a file name is where its extension begins. -/
theorem Path.HasExtension.extension_eq {p : Path} {e : Text} (h : p.HasExtension e) :
    p.extension = e := by
  obtain ⟨stem, hname, hstem, hfree⟩ := h
  obtain ⟨c, more, hmore⟩ := List.exists_cons_of_ne_nil (List.reverse_ne_nil_iff.mpr hstem)
  have hback : '.' ∉ e.reverse := by simpa using hfree
  have hreverse : (stem ++ '.' :: e).reverse = e.reverse ++ '.' :: c :: more := by
    simp [hmore]
  rw [extension, hname]
  dsimp only
  rw [hreverse, Text.dropWhile_ne_append hback, Text.takeWhile_ne_append hback]
  exact e.reverse_reverse

/-- A file has the extension that is read off its name, or none, and then what is read off is
empty. -/
theorem Path.hasExtension_extension (p : Path) :
    p.HasExtension p.extension ∨ p.extension = [] ∧ ∀ e, ¬ p.HasExtension e := by
  by_cases h : ∃ e, p.HasExtension e
  · obtain ⟨e, he⟩ := h
    exact .inl (he.extension_eq.symm ▸ he)
  refine .inr ⟨?_, not_exists.mp h⟩
  unfold extension
  split
  · rfl
  · next name hname =>
    split
    · rfl
    · rfl
    · next c d rest hrest =>
      -- There is a dot with something before it, so the file has an extension after all.
      have hdot : c = '.' := by
        have hhead := List.head?_dropWhile_not (· ≠ '.') name.reverse
        rw [hrest] at hhead
        simpa using hhead
      subst hdot
      have hsplit : name = (d :: rest).reverse ++
          '.' :: (name.reverse.takeWhile (· ≠ '.')).reverse := by
        rw [← List.reverse_inj, List.reverse_append, List.reverse_cons, List.reverse_reverse,
          List.reverse_reverse, List.append_assoc, List.singleton_append, ← hrest,
          List.takeWhile_append_dropWhile]
      refine absurd ⟨_, (d :: rest).reverse, hsplit ▸ hname, by simp, ?_⟩ h
      intro hmem
      simpa using List.mem_takeWhile_imp (List.mem_reverse.mp hmem)

/-- The view in which every path leads to a file with the same text. -/
def FileView.ofText (t : Text) : FileView :=
  ⟨fun _ ↦ some .regular, fun _ ↦ .ok (Utf8.encode t), fun _ ↦ []⟩

namespace Settings

/-- What counts of the extension of a file is its lower case; a file without an extension has the
empty one. -/
def HasLowerExtension (file : Path) (e : Text) : Prop :=
  (∃ x, file.HasExtension x ∧ e = x.map Char.toLower) ∨ (∀ x, ¬ file.HasExtension x) ∧ e = []

/-- What loading settings from a file comes to, said of its bytes, its name and its document. -/
inductive LoadsAs (view : FileView) (file : Path) : Except SettingsError Settings → Prop where
  | unreadable (h : ∀ t, view.read file ≠ .ok (Utf8.encode t)) :
    LoadsAs view file (.error (.unreadable (view.settingsFile file)))
  | unsupportedExtension {t e : Text} (hread : view.read file = .ok (Utf8.encode t))
    (he : HasLowerExtension file e) (h : ∀ format : Format, e ∉ format.extensions) :
    LoadsAs view file (.error (.unsupportedExtension e (view.settingsFile file)))
  | malformed {t e : Text} {format : Format} (hread : view.read file = .ok (Utf8.encode t))
    (he : HasLowerExtension file e) (hformat : e ∈ format.extensions)
    (h : format.parse? t = none) :
    LoadsAs view file (.error (.malformed format (view.settingsFile file)))
  | unfit {t e : Text} {format : Format} {document : format.Value}
    (hread : view.read file = .ok (Utf8.encode t)) (he : HasLowerExtension file e)
    (hformat : e ∈ format.extensions) (hparse : format.parse? t = some document)
    (h : format.settings? document = none) :
    LoadsAs view file (.error (.unfit format (view.settingsFile file)))
  | settings {t e : Text} {format : Format} {document : format.Value} {settings : Settings}
    (hread : view.read file = .ok (Utf8.encode t)) (he : HasLowerExtension file e)
    (hformat : e ∈ format.extensions) (hparse : format.parse? t = some document)
    (h : format.settings? document = some settings) : LoadsAs view file (.ok settings)

/-! ### The stages -/

section Stages

variable {view : FileView} {file : Path} {source : SettingsFile}

/-- A settings file has a text exactly if its bytes encode that text. -/
theorem text?_settingsFile_eq_some_iff {t : Text} :
    (view.settingsFile file).text? = some t ↔ view.read file = .ok (Utf8.encode t) := by
  unfold SettingsFile.text? FileView.settingsFile
  cases view.read file with
  | error cause => simp
  | ok content =>
    dsimp only
    rw [Utf8.decode?_eq_some_iff, Except.ok.injEq, eq_comm]

/-- The extension that counts is the one that is looked at. -/
theorem hasLowerExtension_iff {e : Text} : HasLowerExtension file e ↔ e = extensionOf file := by
  rw [extensionOf]
  constructor
  · rintro (⟨x, hx, rfl⟩ | ⟨hnone, rfl⟩)
    · rw [hx.extension_eq]
    · rcases file.hasExtension_extension with hx | ⟨hnil, -⟩
      · exact absurd hx (hnone _)
      · rw [hnil]
        rfl
  · rintro rfl
    rcases file.hasExtension_extension with hx | ⟨hnil, hnone⟩
    · exact .inl ⟨_, hx, rfl⟩
    · exact .inr ⟨hnone, by rw [hnil]; rfl⟩

/-- A file that is no text is reported as unreadable. -/
theorem load_of_unreadable (h : ∀ t, view.read file ≠ .ok (Utf8.encode t)) :
    load view (some file) = .error (.unreadable (view.settingsFile file)) := by
  have htext : (view.settingsFile file).text? = none := by
    rw [Option.eq_none_iff_forall_ne_some]
    intro t ht
    exact h t (text?_settingsFile_eq_some_iff.mp ht)
  simp only [load, ofFile, htext]

/-- A text in a file with an extension of no format is reported for its extension. -/
theorem load_of_unsupportedExtension {t e : Text} (hread : view.read file = .ok (Utf8.encode t))
    (he : HasLowerExtension file e) (h : ∀ format : Format, e ∉ format.extensions) :
    load view (some file) = .error (.unsupportedExtension e (view.settingsFile file)) := by
  rw [hasLowerExtension_iff] at he
  have hformat : Format.ofExtension? (extensionOf file) = none := by
    rw [Option.eq_none_iff_forall_ne_some]
    intro format hformat
    exact h format (he ▸ Format.ofExtension?_eq_some_iff.mp hformat)
  simp only [load, ofFile, FileView.path_settingsFile,
    text?_settingsFile_eq_some_iff.mpr hread, hformat, he]

/-- A file that is a text and has the extension of a format is read in that format. -/
theorem load_eq_ofText {t e : Text} {format : Format}
    (hread : view.read file = .ok (Utf8.encode t)) (he : HasLowerExtension file e)
    (hformat : e ∈ format.extensions) :
    load view (some file) = ofText format (view.settingsFile file) t := by
  rw [hasLowerExtension_iff.mp he] at hformat
  simp only [load, ofFile, FileView.path_settingsFile,
    text?_settingsFile_eq_some_iff.mpr hread, Format.ofExtension?_eq_some_iff.mpr hformat]

private theorem ofText_of_parse?_eq_none {format : Format} {t : Text} (h : format.parse? t = none) :
    ofText format source t = .error (.malformed format source) := by
  rw [ofText, format.document?_eq, h]
  rfl

/-- A document that does not fit is reported as such. -/
theorem ofText_of_settings?_eq_none {format : Format} {t : Text} {document : format.Value}
    (hparse : format.parse? t = some document) (h : format.settings? document = none) :
    ofText format source t = .error (.unfit format source) := by
  rw [ofText, format.document?_eq, hparse, Option.map_some, h]

/-- A document that fits gives its settings. -/
theorem ofText_of_settings?_eq_some {format : Format} {t : Text} {document : format.Value}
    {settings : Settings} (hparse : format.parse? t = some document)
    (h : format.settings? document = some settings) : ofText format source t = .ok settings := by
  rw [ofText, format.document?_eq, hparse, Option.map_some, h]

end Stages

/-! ### The outcome -/

variable {view : FileView} {file : Path}

/-- Nothing else comes of loading. -/
theorem LoadsAs.load_eq {outcome : Except SettingsError Settings}
    (h : LoadsAs view file outcome) : load view (some file) = outcome := by
  cases h with
  | unreadable h => exact load_of_unreadable h
  | unsupportedExtension hread he h => exact load_of_unsupportedExtension hread he h
  | malformed hread he hformat h =>
    rw [load_eq_ofText hread he hformat, ofText_of_parse?_eq_none h]
  | unfit hread he hformat hparse h =>
    rw [load_eq_ofText hread he hformat, ofText_of_settings?_eq_none hparse h]
  | settings hread he hformat hparse h =>
    rw [load_eq_ofText hread he hformat, ofText_of_settings?_eq_some hparse h]

/-- One of these always comes of loading. -/
theorem exists_loadsAs (view : FileView) (file : Path) : ∃ outcome, LoadsAs view file outcome := by
  by_cases hread : ∃ t, view.read file = .ok (Utf8.encode t)
  · obtain ⟨t, hread⟩ := hread
    have he : HasLowerExtension file (extensionOf file) := hasLowerExtension_iff.mpr rfl
    by_cases hformat : ∃ format : Format, extensionOf file ∈ format.extensions
    · obtain ⟨format, hformat⟩ := hformat
      cases hparse : format.parse? t with
      | none => exact ⟨_, .malformed hread he hformat hparse⟩
      | some document =>
        cases hsettings : format.settings? document with
        | none => exact ⟨_, .unfit hread he hformat hparse hsettings⟩
        | some settings => exact ⟨_, .settings hread he hformat hparse hsettings⟩
    · exact ⟨_, .unsupportedExtension hread he (not_exists.mp hformat)⟩
  · exact ⟨_, .unreadable (not_exists.mp hread)⟩

/-- Loading is exactly what `LoadsAs` says. -/
theorem load_eq_iff {outcome : Except SettingsError Settings} :
    load view (some file) = outcome ↔ LoadsAs view file outcome := by
  constructor
  · rintro rfl
    obtain ⟨outcome, h⟩ := exists_loadsAs view file
    exact h.load_eq.symm ▸ h
  · exact LoadsAs.load_eq

/-- Files with the same bytes, whose extensions are the same up to capital letters of ASCII, have
the same settings. -/
theorem load_eq_ok_of_lower {view' : FileView} {file' : Path} {x x' : Text}
    {settings : Settings} (hx : file.HasExtension x) (hx' : file'.HasExtension x')
    (hlower : x.map Char.toLower = x'.map Char.toLower)
    (hread : view'.read file' = view.read file) (h : load view (some file) = .ok settings) :
    load view' (some file') = .ok settings := by
  have he' : HasLowerExtension file' (extensionOf file) :=
    .inl ⟨x', hx', by rw [← hlower, extensionOf, hx.extension_eq]⟩
  rw [load_eq_iff] at h ⊢
  cases h with
  | settings hbytes he hformat hparse h =>
    rw [hasLowerExtension_iff.mp he] at hformat
    exact .settings (hread.trans hbytes) he' hformat hparse h

/-- Loading settings from a file comes to exactly one thing. If the bytes are no text, or there are
none to read, that is reported whatever the extension is. Else an extension of no format is reported
whatever the text is. Else the text is read in the format of the extension alone: either it is no
document, or the document does not fit the settings, or the settings are those of the document. Two
spellings of an extension that differ in capital letters of ASCII come to the same settings. -/
theorem load_precedence (view : FileView) (file : Path) :
    (∀ outcome, load view (some file) = outcome ↔ LoadsAs view file outcome) ∧
    (∃! outcome, LoadsAs view file outcome) ∧
    (load view (some file) = .error (.unreadable (view.settingsFile file)) ↔
      ∀ t, view.read file ≠ .ok (Utf8.encode t)) ∧
    (∀ t e, view.read file = .ok (Utf8.encode t) → HasLowerExtension file e →
      (load view (some file) = .error (.unsupportedExtension e (view.settingsFile file)) ↔
        e ∉ ["toml", "yaml", "yml"].map String.toList)) ∧
    ∀ (view' : FileView) (file' : Path) (x x' : Text), file.HasExtension x →
      file'.HasExtension x' → x.map Char.toLower = x'.map Char.toLower →
      view'.read file' = view.read file →
      ∀ settings,
        load view (some file) = .ok settings ↔ load view' (some file') = .ok settings := by
  refine ⟨fun _ ↦ load_eq_iff, ?_, ?_, ?_, ?_⟩
  · obtain ⟨outcome, h⟩ := exists_loadsAs view file
    exact ⟨outcome, h, fun other hother ↦ hother.load_eq.symm.trans h.load_eq⟩
  · refine ⟨fun h ↦ ?_, load_of_unreadable⟩
    cases load_eq_iff.mp h with
    | unreadable h => exact h
  · intro t e hread he
    rw [← Format.forall_not_mem_extensions_iff]
    refine ⟨fun h ↦ ?_, load_of_unsupportedExtension hread he⟩
    cases load_eq_iff.mp h with
    | unsupportedExtension _ _ h => exact h
  · intro view' file' x x' hx hx' hlower hread settings
    exact ⟨load_eq_ok_of_lower hx hx' hlower hread,
      load_eq_ok_of_lower hx' hx hlower.symm hread.symm⟩

/-- A name that begins with its only dot has no extension, whatever the text is; one with an
extension in capital letters has the settings of its text. -/
theorem load_precedence_dotFile :
    HasLowerExtension ⟨"d.yml/.toml".toList⟩ [] ∧
    load (.ofText "java_version='17'".toList) (some ⟨"d.yml/.toml".toList⟩) =
      .error (.unsupportedExtension []
        ((FileView.ofText "java_version='17'".toList).settingsFile ⟨"d.yml/.toml".toList⟩)) ∧
    (Path.mk ".launch.TOML".toList).HasExtension "TOML".toList ∧
    (Path.mk "launch.toml".toList).HasExtension "toml".toList ∧
    ∀ settings, load (.ofText "java_version='17'".toList) (some ⟨".launch.TOML".toList⟩) =
        .ok settings ↔
      load (.ofText "java_version='17'".toList) (some ⟨"launch.toml".toList⟩) = .ok settings := by
  have hnone : HasLowerExtension ⟨"d.yml/.toml".toList⟩ [] :=
    hasLowerExtension_iff.mpr (by decide)
  have hcapitals : (Path.mk ".launch.TOML".toList).HasExtension "TOML".toList :=
    ⟨".launch".toList, by decide, by decide, by decide⟩
  have hsmall : (Path.mk "launch.toml".toList).HasExtension "toml".toList :=
    ⟨"launch".toList, by decide, by decide, by decide⟩
  refine ⟨hnone, ?_, hcapitals, hsmall, ?_⟩
  · exact ((load_precedence _ _).2.2.2.1 _ [] rfl hnone).mpr (by decide)
  · exact (load_precedence _ _).2.2.2.2 _ _ _ _ hcapitals hsmall (by decide) rfl

end Settings

end LaunchOptions
