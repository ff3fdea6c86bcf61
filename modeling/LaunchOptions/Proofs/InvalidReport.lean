import LaunchOptions.Proofs.DecodedText
import LaunchOptions.Proofs.FailFast
import LaunchOptions.Proofs.Numeral
import LaunchOptions.Proofs.RunOutcome

/-!
# Reports of invalid lines

A report has a summary and an entry for each invalid line, in the order of the line numbers. It
loses nothing: the report of a file tells which lines are invalid and what they hold. When a run
fails with it, each entry is one line of what is written, since neither the lines of a file nor the
wording of the report have a line feed in them.
-/

namespace LaunchOptions

/-! ### Numerals in a text -/

namespace Text

/-- A number and what follows it are told apart by a character that is no digit. -/
theorem ofNat_append_cons_inj {m n : Nat} {d : Char} {t u : Text} (hd : isDigit d = false)
    (h : ofNat m ++ d :: t = ofNat n ++ d :: u) : m = n ∧ t = u := by
  have hspan := (numeral_ofNat m).isDigits.span t hd
  have hspan' := (numeral_ofNat n).isDigits.span u hd
  rw [h] at hspan
  obtain ⟨hdigits, hrest⟩ := hspan
  rw [hspan'.1] at hdigits
  rw [hspan'.2] at hrest
  exact ⟨(ofNat_injective hdigits).symm, (List.cons.inj hrest).2.symm⟩

private theorem lineFeed_not_mem_ofNat (n : Nat) : '\n' ∉ ofNat n := by
  intro hmem
  have hdigit := (numeral_ofNat n).isDigits.2 '\n' hmem
  exact absurd hdigit (by decide)

end Text

namespace CommandLine

open Report (entryLine entryLines)

/-! ### Entries -/

/-- The wording of an entry. -/
theorem entryLine_eq (file : Path) (i n : Nat) (t : Text) :
    entryLine file i n t =
      '[' :: (Text.ofNat i ++ ']' :: (": encountered improperly formatted option in [".toList ++
        (file.spelling ++ ("] on line number [".toList ++
          (Text.ofNat n ++ ']' :: (": [".toList ++ (t ++ [']']))))))) := by
  have hplace : "]: encountered improperly formatted option in [".toList =
      ']' :: ": encountered improperly formatted option in [".toList := rfl
  have hnumber : "]: [".toList = ']' :: ": [".toList := rfl
  simp only [entryLine, hplace, hnumber, List.append_assoc, List.cons_append, List.nil_append]

private theorem place_isPrefix_entryLine (file : Path) (i n : Nat) (t : Text) :
    ['['] ++ Text.ofNat i ++ "]: ".toList <+: entryLine file i n t := by
  have hplace : "]: encountered improperly formatted option in [".toList =
      "]: ".toList ++ "encountered improperly formatted option in [".toList := rfl
  simp only [entryLine, hplace, List.append_assoc, List.prefix_append_right_inj,
    List.prefix_append]

private theorem number_isSuffix_entryLine (file : Path) (i n : Nat) (t : Text) :
    "line number [".toList ++ Text.ofNat n ++ "]: [".toList ++ t ++ [']'] <:+
      entryLine file i n t := by
  have hnumber : "] on line number [".toList = "] on ".toList ++ "line number [".toList := rfl
  refine ⟨['['] ++ Text.ofNat i ++ "]: encountered improperly formatted option in [".toList ++
    file.spelling ++ "] on ".toList, ?_⟩
  simp only [entryLine, hnumber, List.append_assoc]

/-- The entry for a line tells its place, its number and its text. -/
theorem entryLine_inj {file : Path} {i j m n : Nat} {t u : Text}
    (h : entryLine file i m t = entryLine file j n u) : i = j ∧ m = n ∧ t = u := by
  have hclose : Text.isDigit ']' = false := by decide
  rw [entryLine_eq, entryLine_eq] at h
  obtain ⟨hplace, hafter⟩ := Text.ofNat_append_cons_inj hclose (List.cons.inj h).2
  have hafter := List.append_cancel_left
    (List.append_cancel_left (List.append_cancel_left hafter))
  obtain ⟨hnumber, htext⟩ := Text.ofNat_append_cons_inj hclose hafter
  exact ⟨hplace, hnumber, List.append_cancel_right (List.append_cancel_left htext)⟩

private theorem length_entryLines (file : Path) (index : Nat) (entries : List (Nat × Text)) :
    (entryLines file index entries).length = entries.length := by
  induction entries generalizing index with
  | nil => rfl
  | cons e rest ih => rw [entryLines, List.length_cons, ih, List.length_cons]

/-- Each entry stands at its place and has the number of it. -/
theorem getElem?_entryLines (file : Path) (index i : Nat) (entries : List (Nat × Text)) :
    (entryLines file index entries)[i]? =
      entries[i]?.map fun e ↦ entryLine file (index + i) e.1 e.2 := by
  induction entries generalizing index i with
  | nil => rfl
  | cons e rest ih =>
    cases i with
    | zero => rfl
    | succ i =>
      rw [entryLines, List.getElem?_cons_succ, List.getElem?_cons_succ, ih, Nat.add_right_comm,
        Nat.add_assoc]

/-- Entries are known by their lines. -/
theorem entryLines_inj {file : Path} {index : Nat} {entries entries' : List (Nat × Text)}
    (h : entryLines file index entries = entryLines file index entries') :
    entries = entries' := by
  induction entries generalizing index entries' with
  | nil =>
    cases entries' with
    | nil => rfl
    | cons e rest => cases h
  | cons e rest ih =>
    cases entries' with
    | nil => cases h
    | cons e' rest' =>
      obtain ⟨hline, hrest⟩ := List.cons.inj h
      obtain ⟨-, hnumber, htext⟩ := entryLine_inj hline
      rw [ih hrest, Prod.ext hnumber htext]

/-- Where numbers ascend, the place of an entry is the number of entries with smaller ones. -/
theorem countP_of_getElem? {entries : List (Nat × Text)} {i : Nat} {e : Nat × Text}
    (hascending : entries.Pairwise (·.1 < ·.1)) (h : entries[i]? = some e) :
    entries.countP (·.1 < e.1) = i := by
  induction entries generalizing i with
  | nil => cases h
  | cons first rest ih =>
    obtain ⟨hfirst, hrest⟩ := List.pairwise_cons.mp hascending
    cases i with
    | zero =>
      obtain rfl : first = e := Option.some.inj h
      rw [List.countP_eq_zero]
      intro x hx
      rcases List.mem_cons.mp hx with rfl | hx
      · simp
      · simpa using Nat.le_of_lt (hfirst x hx)
    | succ i =>
      have he : rest[i]? = some e := h
      have hlt := hfirst e (List.mem_of_getElem? he)
      rw [List.countP_cons_of_pos (by simpa using hlt), ih hrest he]

/-! ### Reports -/

/-- A failure for invalid lines has the summary of its report as its message. -/
theorem message_invalidLines (file : Path) (lines : InvalidLines) :
    OptionsError.message (.invalidLines file lines) = Report.summary file lines.size := rfl

/-- An entry stands behind the summary, after the entries with smaller numbers. -/
theorem getElem?_invalidLines_iff {file : Path} {lines : InvalidLines} {i : Nat} {line : Text} :
    (Report.invalidLines file lines)[i + 1]? = some line ↔
      ∃ n text, lines.get? n = some text ∧ lines.toList.countP (·.1 < n) = i ∧
        line = entryLine file (i + 1) n text := by
  have hascending : lines.toList.Pairwise (·.1 < ·.1) :=
    lines.ascending.imp Nat.compare_eq_lt.mp
  have hentry : (Report.invalidLines file lines)[i + 1]? =
      lines.toList[i]?.map fun e ↦ entryLine file (i + 1) e.1 e.2 := by
    rw [Report.invalidLines, List.getElem?_cons_succ, getElem?_entryLines, Nat.add_comm 1]
  rw [hentry, Option.map_eq_some_iff]
  constructor
  · rintro ⟨⟨n, text⟩, he, rfl⟩
    exact ⟨n, text, OrderedMap.get?_eq_some_iff.mpr (List.mem_of_getElem? he),
      countP_of_getElem? hascending he, rfl⟩
  · rintro ⟨n, text, hget, rfl, rfl⟩
    obtain ⟨j, hj⟩ := List.mem_iff_getElem?.mp (OrderedMap.get?_eq_some_iff.mp hget)
    exact ⟨(n, text), by rw [countP_of_getElem? hascending hj, hj], rfl⟩

/-- The numbers of the entries ascend. -/
theorem number_lt_number {file : Path} {lines : InvalidLines} {i j m n : Nat} {t u : Text}
    (hi : (Report.invalidLines file lines)[i + 1]? = some (entryLine file (i + 1) m t))
    (hj : (Report.invalidLines file lines)[j + 1]? = some (entryLine file (j + 1) n u))
    (hij : i < j) : m < n := by
  obtain ⟨m', t', -, hcount, hentry⟩ := getElem?_invalidLines_iff.mp hi
  obtain ⟨n', u', -, hcount', hentry'⟩ := getElem?_invalidLines_iff.mp hj
  obtain ⟨-, rfl, -⟩ := entryLine_inj hentry
  obtain ⟨-, rfl, -⟩ := entryLine_inj hentry'
  by_contra hle
  have hback : lines.toList.countP (·.1 < n) ≤ lines.toList.countP (·.1 < m) :=
    List.countP_mono_left fun e _ he ↦ by
      simp only [decide_eq_true_eq] at he ⊢
      omega
  omega

/-- A report tells which lines are invalid. -/
theorem invalidLines_injective {file : Path} {lines lines' : InvalidLines}
    (h : Report.invalidLines file lines = Report.invalidLines file lines') : lines = lines' :=
  OrderedMap.ext (entryLines_inj (List.cons.inj h).2)

/-- A line has an entry if it is recorded, and no other line has one. -/
theorem exists_entry_iff {file : Path} {lines : InvalidLines} {n : Nat} {text : Text} :
    (∃ i, (Report.invalidLines file lines)[i + 1]? = some (entryLine file (i + 1) n text)) ↔
      lines.get? n = some text := by
  simp only [getElem?_invalidLines_iff]
  constructor
  · rintro ⟨i, n', text', hget, -, hentry⟩
    obtain ⟨-, rfl, rfl⟩ := entryLine_inj hentry
    exact hget
  · intro hget
    exact ⟨_, n, text, hget, rfl, rfl⟩

/-! ### What is written -/

private theorem lineFeed_not_mem_summary {file : Path} (hfile : '\n' ∉ file.spelling)
    (count : Nat) :
    '\n' ∉ Report.summary file count := by
  have hplural : '\n' ∉ OptionsError.pluralEnding count := by
    by_cases hone : count = 1 <;> simp [OptionsError.pluralEnding, hone]
  unfold Report.summary
  refine List.not_mem_append (List.not_mem_append (List.not_mem_append (List.not_mem_append
    (List.not_mem_append (List.not_mem_append ?_ ?_) ?_) hplural) ?_) hfile) ?_
  · decide
  · exact Text.lineFeed_not_mem_ofNat count
  · decide
  · decide
  · decide

private theorem lineFeed_not_mem_entryLine {file : Path} {t : Text} (hfile : '\n' ∉ file.spelling)
    (ht : '\n' ∉ t) (i n : Nat) : '\n' ∉ entryLine file i n t := by
  unfold entryLine
  refine List.not_mem_append (List.not_mem_append (List.not_mem_append (List.not_mem_append
    (List.not_mem_append (List.not_mem_append (List.not_mem_append (List.not_mem_append
      ?_ ?_) ?_) hfile) ?_) ?_) ?_) ht) ?_
  · decide
  · exact Text.lineFeed_not_mem_ofNat i
  · decide
  · decide
  · exact Text.lineFeed_not_mem_ofNat n
  · decide
  · decide

/-- No line of a report has a line feed in it if there is none in the path and in the lines. -/
theorem lineFeed_not_mem_invalidLines {file : Path} {lines : InvalidLines}
    (hfile : '\n' ∉ file.spelling) (hlines : ∀ n text, lines.get? n = some text → '\n' ∉ text) :
    ∀ line ∈ Report.invalidLines file lines, '\n' ∉ line := by
  intro line hline
  obtain ⟨i, hi⟩ := List.mem_iff_getElem?.mp hline
  cases i with
  | zero =>
    obtain rfl : Report.summary file lines.size = line := Option.some.inj hi
    exact lineFeed_not_mem_summary hfile _
  | succ i =>
    obtain ⟨n, text, hget, -, rfl⟩ := getElem?_invalidLines_iff.mp hi
    exact lineFeed_not_mem_entryLine hfile (hlines n text hget) _ _

/-- Lines that are written are told apart again by their ends. -/
theorem pieces_lines {ts : List Text} (h : ∀ t ∈ ts, '\n' ∉ t) :
    Text.pieces (· = '\n') (Outcome.lines ts) = ts ++ [[]] := by
  induction ts with
  | nil => rfl
  | cons t more ih =>
    have hstep : Outcome.lines (t :: more) = t ++ '\n' :: Outcome.lines more := by
      simp [Outcome.lines]
    have ht : ∀ c ∈ t, decide (c = '\n') = false := by
      intro c hc
      rw [decide_eq_false_iff_not]
      rintro rfl
      exact h t (by simp) hc
    rw [hstep, Text.pieces_append_cons (by decide), Text.pieces_of_forall ht,
      ih fun u hu ↦ h u (by simp [hu]), List.singleton_append, List.cons_append]

/-- Invalid lines are reported the same in every environment, and without calls. -/
theorem report_invalidLines (root file : Path) (lines : InvalidLines) (environment : Environment)
    (wording : Wording) :
    (Failure.assembly root (.invalidLines file lines)).report environment wording =
      Report.invalidLines file lines := by
  simp [Failure.report, Failure.account, Failure.backtrace]

/-- What a run writes about the invalid lines of a file, cut into lines. -/
theorem pieces_stderr {view : FileView} {environment : Environment} {arguments : List Text}
    {request : Request} {root file : Path} {lines : InvalidLines}
    (h : Invocation.ofArguments arguments = .ok (.run request))
    (hoptions : request.options view environment =
      .error (.assembly root (.invalidLines file lines)))
    (hfile : '\n' ∉ file.spelling)
    (hlines : ∀ n text, lines.get? n = some text → '\n' ∉ text) (wording : Wording) :
    Text.pieces (· = '\n') (run view environment arguments wording).stderr =
      Report.invalidLines file lines ++ [[]] := by
  rw [run_of_request h, hoptions, Outcome.ofOptions, report_invalidLines]
  exact pieces_lines (lineFeed_not_mem_invalidLines hfile hlines)

/-- A run that fails for the invalid lines of a file has read it and found the fault in it. -/
theorem isFault_of_options {request : Request} {view : FileView} {environment : Environment}
    {root : Path} {e : OptionsError}
    (h : request.options view environment = .error (.assembly root e)) :
    ∃ file ∈ Discovery.optionsFiles view request.path, Assembly.IsFault view file e := by
  rcases request.passes_or_fails view environment with
    ⟨settings, version, files, hpasses⟩ | ⟨failure, hfails⟩
  · obtain ⟨options, -, hoptions⟩ := hpasses.exists_options
    rw [hoptions] at h
    cases h
  · rw [hfails.options_eq] at h
    cases h
    cases hfails with
    | read hload hrecognise hread =>
      obtain ⟨before, file, after, hfiles, -, hfault⟩ :=
        Assembly.readOptions_eq_error_iff.mp hread
      exact ⟨file, by simp [hfiles], hfault⟩

/-- The report of the invalid lines of a file is exact and loses nothing. Its summary is the message
of the failure, and an entry for each invalid line follows, numbered in the order of the lines.
When a run fails with the report, each line of it is one line of what is written, and the entries
are those of the lines of the file that have no reading. -/
theorem invalidLines_report :
    (∀ (file : Path) (lines : InvalidLines),
      (Report.invalidLines file lines).length = lines.size + 1 ∧
      (Report.invalidLines file lines).head? =
        some (OptionsError.message (.invalidLines file lines)) ∧
      (∀ i line, (Report.invalidLines file lines)[i + 1]? = some line ↔
        ∃ n text, lines.get? n = some text ∧ lines.toList.countP (·.1 < n) = i ∧
          line = entryLine file (i + 1) n text) ∧
      (∀ i n text,
        ['['] ++ Text.ofNat i ++ "]: ".toList <+: entryLine file i n text ∧
        "line number [".toList ++ Text.ofNat n ++ "]: [".toList ++ text ++ [']'] <:+
          entryLine file i n text) ∧
      (∀ i j m n t u, i < j →
        (Report.invalidLines file lines)[i + 1]? = some (entryLine file (i + 1) m t) →
        (Report.invalidLines file lines)[j + 1]? = some (entryLine file (j + 1) n u) → m < n) ∧
      ∀ lines', Report.invalidLines file lines = Report.invalidLines file lines' →
        lines = lines') ∧
    ∀ (view : FileView) (environment : Environment) (arguments : List Text) (wording : Wording)
      (request : Request) (root file : Path) (lines : InvalidLines),
      Invocation.ofArguments arguments = .ok (.run request) →
      request.options view environment = .error (.assembly root (.invalidLines file lines)) →
      '\n' ∉ file.spelling →
      ∃ content numbered,
        file ∈ Discovery.optionsFiles view request.path ∧ view.read file = .ok content ∧
        (LineSource.ofBytes content).lines? = some numbered ∧
        Text.pieces (· = '\n') (run view environment arguments wording).stderr =
          Report.invalidLines file lines ++ [[]] ∧
        ∀ n text,
          (∃ i, (Report.invalidLines file lines)[i + 1]? =
            some (entryLine file (i + 1) n text)) ↔
          ∃ k, n = k + 1 ∧ numbered[k]? = some text ∧ OptionLine.classify text = .invalid := by
  constructor
  · intro file lines
    refine ⟨?_, ?_, fun _ _ ↦ getElem?_invalidLines_iff, ?_, ?_, ?_⟩
    · rw [Report.invalidLines, List.length_cons, length_entryLines, OrderedMap.size]
    · rw [message_invalidLines, Report.invalidLines, List.head?_cons]
    · intro i n text
      exact ⟨place_isPrefix_entryLine file i n text, number_isSuffix_entryLine file i n text⟩
    · intro i j m n t u hij hi hj
      exact number_lt_number hi hj hij
    · intro lines' hreport
      exact invalidLines_injective hreport
  · intro view environment arguments wording request root file lines hrequest hoptions hfile
    obtain ⟨file', hmem, hfault⟩ := isFault_of_options hoptions
    cases hfault with
    | @invalidLines content _ hread _ hlines =>
      have hfree : ∀ n text, lines.get? n = some text → '\n' ∉ text := by
        intro n text hget
        obtain ⟨k, -, htext, -⟩ := (hlines n text).mp hget
        exact not_mem_of_mem_contentLines (List.mem_of_getElem? htext)
          (Text.mem_lineBreaks.mpr (.inl rfl))
      refine ⟨content, contentLines content, hmem, hread, LineSource.lines?_ofBytes content,
        pieces_stderr hrequest hoptions hfile hfree wording, fun n text ↦ ?_⟩
      rw [exists_entry_iff, hlines]

/-- Every path leads to one file, which has two invalid lines and a comment between them. -/
def commentBetween : FileView :=
  ⟨fun _ ↦ some .regular, fun _ ↦ .ok (Utf8.encode "bogus\n#\n9-8:-a".toList), fun _ ↦ []⟩

/-- The two invalid lines. -/
def aroundComment : InvalidLines :=
  ⟨[(1, "bogus".toList), (3, "9-8:-a".toList)], by decide⟩

/-- The entries of the two lines are the first and the second, and they tell the numbers one and
three. -/
theorem invalidLines_report_commentBetween :
    Invocation.ofArguments ["f".toList] = .ok (.run { path := ⟨"f".toList⟩ }) ∧
    Text.pieces (· = '\n') (run commentBetween (.ofList []) ["f".toList]).stderr =
      ["encountered [2] errors parsing [f]",
        "[1]: encountered improperly formatted option in [f] on line number [1]: [bogus]",
        "[2]: encountered improperly formatted option in [f] on line number [3]: [9-8:-a]",
        ""].map String.toList := by
  have hrequest : Invocation.ofArguments ["f".toList] = .ok (.run { path := ⟨"f".toList⟩ }) := rfl
  have hcontent : contentLines (Utf8.encode "bogus\n#\n9-8:-a".toList) =
      ["bogus", "#", "9-8:-a"].map String.toList := by decide
  have hfile : Assembly.fileOptions commentBetween 8 ⟨"f".toList⟩ =
      .error (.invalidLines ⟨"f".toList⟩ aroundComment) := by
    rw [Assembly.fileOptions_of_ok rfl, hcontent]
    rfl
  have hread : Assembly.readOptions commentBetween ⟨"f".toList⟩ 8 =
      .error (.invalidLines ⟨"f".toList⟩ aroundComment) :=
    Assembly.readOptions_eq_error_iff.mpr
      ⟨[], _, [], rfl, by simp, Assembly.fileOptions_eq_error_iff.mp hfile⟩
  have hoptions : Request.options { path := ⟨"f".toList⟩ } commentBetween (.ofList []) =
      .error (.assembly ⟨"f".toList⟩ (.invalidLines ⟨"f".toList⟩ aroundComment)) :=
    (Request.Fails.read rfl rfl hread).options_eq
  obtain ⟨_, _, -, -, -, hpieces, -⟩ :=
    invalidLines_report.2 _ _ _ {} _ _ _ _ hrequest hoptions (by decide)
  refine ⟨hrequest, hpieces.trans ?_⟩
  decide

end CommandLine

end LaunchOptions
