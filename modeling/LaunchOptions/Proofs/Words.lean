import LaunchOptions.Proofs.RunOutcome
import Mathlib.Data.List.DropRight

/-!
# Words

White space cuts a text into words, and nothing else does: two characters are in one word exactly if
there is no white space between them. So a text may be cut at white space, words that are joined by
spaces are read back, and overrides are the words of all values of variables put together.
-/

namespace LaunchOptions

namespace Text

/-- A word is not empty and has no white space in it. -/
def IsWord (w : Text) : Prop := w ≠ [] ∧ ∀ c ∈ w, isWhiteSpace c = false

/-- Whether a character is no white space. -/
def isSolid (c : Char) : Bool := !isWhiteSpace c

private theorem isSolid_iff {c : Char} : isSolid c = true ↔ isWhiteSpace c = false := by
  rw [isSolid, Bool.not_eq_true']

private theorem isSolid_eq_false_iff {c : Char} : isSolid c = false ↔ isWhiteSpace c = true := by
  rw [isSolid, Bool.not_eq_false']

private theorem isWord_iff {w : Text} : IsWord w ↔ w ≠ [] ∧ w.all isSolid = true := by
  simp only [IsWord, List.all_eq_true, isSolid_iff]

instance (w : Text) : Decidable (IsWord w) := decidable_of_iff' _ isWord_iff

/-- The number of characters of a text that are no white space. -/
def solidCount (t : Text) : Nat := t.countP isSolid

/-- The characters at two places, the first of which comes before the second, are in one word. A
place counts the characters of all words before it. -/
def InOneWord (ws : List Text) (first second : Nat) : Prop :=
  ∃ earlier w later, ws = earlier ++ w :: later ∧ earlier.flatten.length ≤ first ∧
    second < (earlier.flatten ++ w).length

/-! ### Cutting at white space -/

/-- The words of a text are words. -/
theorem isWord_of_mem_words {t w : Text} (h : w ∈ words t) : IsWord w :=
  ⟨ne_nil_of_mem_words h, fun _ hc ↦ not_of_mem_pieces (List.mem_of_mem_filter h) hc⟩

/-- White space belongs to no word, and what is on its two sides has words of its own. -/
theorem words_append_cons {c : Char} (h : isWhiteSpace c = true) (t u : Text) :
    words (t ++ c :: u) = words t ++ words u := by
  rw [words, pieces_append_cons h, List.filter_append]
  rfl

private theorem words_of_isWord {w : Text} (h : IsWord w) : words w = [w] := by
  obtain ⟨hne, hsolid⟩ := h
  rw [words, pieces_of_forall hsolid]
  simp [hne]

/-- White space at the end of a text cuts off what follows. -/
theorem words_append_of_getLast? {t : Text} (h : ∀ c, t.getLast? = some c → isWhiteSpace c = true)
    (u : Text) : words (t ++ u) = words t ++ words u := by
  rcases List.eq_nil_or_concat t with rfl | ⟨front, c, rfl⟩
  · rfl
  · have hc : isWhiteSpace c = true := h c (by simp)
    have hfront : words (front ++ [c]) = words front := by
      rw [words_append_cons hc, show words [] = [] from rfl, List.append_nil]
    rw [List.concat_eq_append, hfront, List.append_assoc, List.singleton_append,
      words_append_cons hc]

/-- So does white space at the beginning of a text with what comes before. -/
theorem words_append_of_head? {u : Text} (h : ∀ c, u.head? = some c → isWhiteSpace c = true)
    (t : Text) : words (t ++ u) = words t ++ words u := by
  cases u with
  | nil => rw [show words [] = [] from rfl, List.append_nil, List.append_nil]
  | cons c rest =>
    have hc : isWhiteSpace c = true := h c rfl
    have hrest : words (c :: rest) = words rest := words_append_cons hc [] rest
    rw [words_append_cons hc, hrest]

/-- A text that is white space has no words. -/
theorem words_of_forall {t : Text} (h : ∀ c ∈ t, isWhiteSpace c = true) : words t = [] := by
  induction t with
  | nil => rfl
  | cons c rest ih =>
    rw [show c :: rest = [] ++ c :: rest from rfl, words_append_cons (h c (by simp)),
      ih fun d hd ↦ h d (by simp [hd])]
    rfl

/-- A gap ends the words before it. -/
theorem words_append_gap {gap : Text} (hne : gap ≠ []) (h : ∀ c ∈ gap, isWhiteSpace c = true)
    (t u : Text) : words (t ++ gap ++ u) = words t ++ words u := by
  have hlast : ∀ c, (t ++ gap).getLast? = some c → isWhiteSpace c = true := by
    intro c hc
    rw [List.getLast?_append_of_ne_nil _ hne] at hc
    exact h c (List.mem_of_getLast? hc)
  have hhead : ∀ c, gap.head? = some c → isWhiteSpace c = true :=
    fun c hc ↦ h c (List.mem_of_head? hc)
  rw [words_append_of_getLast? hlast, words_append_of_head? hhead, words_of_forall h,
    List.append_nil]

/-! ### Joining with spaces -/

/-- Joined texts have the words of them all. -/
theorem words_joinWith (ts : List Text) : words (joinWith [' '] ts) = ts.flatMap words := by
  induction ts with
  | nil => rfl
  | cons t more ih =>
    cases more with
    | nil => simp [joinWith]
    | cons u rest =>
      have hspace : ∀ c ∈ [' '], isWhiteSpace c = true := List.all_eq_true.mp rfl
      calc words (joinWith [' '] (t :: u :: rest))
        _ = words (t ++ [' '] ++ joinWith [' '] (u :: rest)) := rfl
        _ = words t ++ (u :: rest).flatMap words := by
          rw [words_append_gap (by simp) hspace, ih]
        _ = (t :: u :: rest).flatMap words := rfl

/-- Words that are joined by spaces are read back. -/
theorem words_joinWith_of_isWord {ws : List Text} (h : ∀ w ∈ ws, IsWord w) :
    words (joinWith [' '] ws) = ws := by
  rw [words_joinWith]
  induction ws with
  | nil => rfl
  | cons w rest ih =>
    rw [List.flatMap_cons, words_of_isWord (h w (by simp)), ih fun v hv ↦ h v (by simp [hv])]
    rfl

/-! ### Characters in one word -/

/-- The words of a text have all of its characters that are no white space. -/
theorem length_flatten_words (t : Text) : (words t).flatten.length = solidCount t := by
  rw [flatten_words, solidCount, List.countP_eq_length_filter]
  rfl

private theorem solidCount_append (t u : Text) :
    solidCount (t ++ u) = solidCount t + solidCount u :=
  List.countP_append

private theorem solidCount_of_forall {t : Text} (h : ∀ c ∈ t, isWhiteSpace c = false) :
    solidCount t = t.length := by
  rw [solidCount, List.countP_eq_length]
  exact fun c hc ↦ isSolid_iff.mpr (h c hc)

/-- A word stays one if characters that are no white space are put around it. -/
theorem IsWord.extend {w front back : Text} (h : IsWord w)
    (hfront : ∀ c ∈ front, isWhiteSpace c = false) (hback : ∀ c ∈ back, isWhiteSpace c = false) :
    IsWord (front ++ w ++ back) := by
  refine ⟨by simp [h.1], ?_⟩
  intro c hc
  simp only [List.mem_append] at hc
  rcases hc with (hc | hc) | hc
  · exact hfront c hc
  · exact h.2 c hc
  · exact hback c hc

private theorem isWhiteSpace_of_getLast?_rdropWhile {t : Text} {c : Char}
    (h : (t.rdropWhile isSolid).getLast? = some c) : isWhiteSpace c = true := by
  have hne : t.rdropWhile isSolid ≠ [] := List.ne_nil_of_mem (List.mem_of_getLast? h)
  rw [List.getLast?_eq_some_getLast hne] at h
  obtain rfl := Option.some.inj h
  exact isSolid_eq_false_iff.mp (Bool.eq_false_iff.mpr (List.rdropWhile_last_not isSolid t hne))

private theorem isWhiteSpace_of_head?_dropWhile {t : Text} {c : Char}
    (h : (t.dropWhile isSolid).head? = some c) : isWhiteSpace c = true := by
  have hnot := List.head?_dropWhile_not isSolid t
  rw [h] at hnot
  exact isSolid_eq_false_iff.mp hnot

/-- A stretch without white space lies in one word, together with the stretches that it follows and
that follow it without white space. -/
theorem exists_words_append {stretch : Text} (h : IsWord stretch) (before after : Text) :
    ∃ earlier front back later,
      words (before ++ stretch ++ after) = earlier ++ (front ++ stretch ++ back) :: later ∧
        earlier.flatten.length + front.length = solidCount before := by
  have hfront : ∀ c ∈ before.rtakeWhile isSolid, isWhiteSpace c = false :=
    fun c hc ↦ isSolid_iff.mp (List.mem_rtakeWhile_imp hc)
  have hback : ∀ c ∈ after.takeWhile isSolid, isWhiteSpace c = false :=
    fun c hc ↦ isSolid_iff.mp (List.mem_takeWhile_imp hc)
  refine ⟨words (before.rdropWhile isSolid), before.rtakeWhile isSolid, after.takeWhile isSolid,
    words (after.dropWhile isSolid), ?_, ?_⟩
  · calc words (before ++ stretch ++ after)
      _ = words (before.rdropWhile isSolid ++
            ((before.rtakeWhile isSolid ++ stretch ++ after.takeWhile isSolid) ++
              after.dropWhile isSolid)) := by
        simp only [List.append_assoc, List.takeWhile_append_dropWhile]
        rw [← List.append_assoc (before.rdropWhile isSolid), List.rdropWhile_append_rtakeWhile]
      _ = _ := by
        -- The word ends at white space or with the text, on either side.
        rw [words_append_of_getLast? fun _ ↦ isWhiteSpace_of_getLast?_rdropWhile,
          words_append_of_head? fun _ ↦ isWhiteSpace_of_head?_dropWhile,
          words_of_isWord (h.extend hfront hback)]
        rfl
  · rw [length_flatten_words, ← solidCount_of_forall hfront, ← solidCount_append,
      List.rdropWhile_append_rtakeWhile]

/-- Words before a place and words from it on have no word in common. -/
theorem not_inOneWord_append {ws vs : List Text} {first second : Nat}
    (hfirst : first < ws.flatten.length) (hsecond : ws.flatten.length ≤ second) :
    ¬ InOneWord (ws ++ vs) first second := by
  rintro ⟨earlier, w, later, hcut, hbegin, hend⟩
  rcases List.append_eq_append_iff.mp hcut with ⟨more, hearlier, -⟩ | ⟨more, hws, hmore⟩
  · -- The word is one of the later ones, so the first place is too.
    rw [hearlier, List.flatten_append, List.length_append] at hbegin
    omega
  · cases more with
    | nil =>
      rw [List.append_nil] at hws
      rw [hws] at hfirst
      omega
    | cons v rest =>
      obtain ⟨rfl, -⟩ := List.cons.inj hmore
      rw [hws] at hsecond
      simp only [List.flatten_append, List.flatten_cons, List.length_append] at hsecond hend
      omega

/-- Two characters are in one word exactly if there is no white space between them. -/
theorem inOneWord_iff {c d : Char} (hc : isWhiteSpace c = false) (hd : isWhiteSpace d = false)
    (before between after : Text) :
    InOneWord (words (before ++ c :: between ++ d :: after)) (solidCount before)
        (solidCount (before ++ c :: between)) ↔
      ∀ e ∈ between, isWhiteSpace e = false := by
  constructor
  · intro hone e he
    by_contra hspace
    rw [Bool.not_eq_false] at hspace
    obtain ⟨left, right, rfl⟩ := List.append_of_mem he
    have hcut : words (before ++ c :: (left ++ e :: right) ++ d :: after) =
        words (before ++ c :: left) ++ words (right ++ d :: after) := by
      rw [← words_append_cons hspace]
      simp
    have hpos : 0 < solidCount (c :: left) :=
      List.countP_pos_iff.mpr ⟨c, List.mem_cons_self, isSolid_iff.mpr hc⟩
    rw [hcut] at hone
    refine not_inOneWord_append ?_ ?_ hone
    · rw [length_flatten_words, solidCount_append]
      omega
    · rw [length_flatten_words, ← List.cons_append, ← List.append_assoc,
        solidCount_append _ (e :: _)]
      omega
  · intro hbetween
    have hstretch : IsWord (c :: between ++ [d]) := by
      refine ⟨by simp, ?_⟩
      simpa [hc, hd, or_imp, forall_and] using hbetween
    obtain ⟨earlier, front, back, later, hwords, hcount⟩ :=
      exists_words_append hstretch before after
    have htext : before ++ (c :: between ++ [d]) ++ after =
        before ++ c :: between ++ d :: after := by simp
    rw [htext] at hwords
    refine ⟨earlier, _, later, hwords, by omega, ?_⟩
    rw [solidCount_append, ← hcount, solidCount_of_forall]
    · simp only [List.length_append, List.length_cons, List.length_nil]
      omega
    · simpa [hc] using hbetween

end Text

/-- Overrides are the words of all values of the variables, joined by spaces. -/
theorem Environment.overrides_eq_words (environment : Environment) (names : List Text) :
    environment.overrides names =
      Text.words (Text.joinWith [' '] (names.filterMap environment.get?)) := by
  rw [overrides, Text.words_joinWith]

/-- The line that a run prints has the options as its words, if each option is a word. -/
theorem CommandLine.words_stdout {arguments : List Text} {request : Request} {view : FileView}
    {environment : Environment} {options : List Text}
    (h : Invocation.ofArguments arguments = .ok (.run request))
    (hoptions : request.options view environment = .ok options)
    (hwords : ∀ option ∈ options, Text.IsWord option) (wording : Wording) :
    Text.words (run view environment arguments wording).stdout = options := by
  have hline : (run view environment arguments wording).stdout =
      Text.joinWith [' '] options ++ ['\n'] := by
    rw [run_of_request h, hoptions]
    rfl
  have hbreak : ∀ c ∈ ['\n'], Text.isWhiteSpace c = true := List.all_eq_true.mp rfl
  rw [hline, Text.words_append_of_head? fun c hc ↦ hbreak c (List.mem_of_head? hc),
    Text.words_joinWith_of_isWord hwords, Text.words_of_forall hbreak, List.append_nil]

/-- Words are the maximal runs of a text without white space: they are not empty, they hold all that
is no white space in its order, and two characters are in one word exactly if there is no white
space between them. So a text may be cut at white space, and words that are joined by spaces are
read back, as those of a printed line are. Overrides are the words of the values that are set, in
the order of the names. -/
theorem Text.words_maximal :
    (∀ t, (∀ w ∈ words t, IsWord w) ∧
      (words t).flatten = t.filter fun c ↦ !isWhiteSpace c) ∧
    (∀ (before between after : Text) (c d : Char),
      isWhiteSpace c = false → isWhiteSpace d = false →
      (InOneWord (words (before ++ c :: between ++ d :: after)) (solidCount before)
          (solidCount (before ++ c :: between)) ↔
        ∀ e ∈ between, isWhiteSpace e = false)) ∧
    (∀ t u gap : Text, gap ≠ [] → (∀ c ∈ gap, isWhiteSpace c = true) →
      words (t ++ gap ++ u) = words t ++ words u) ∧
    (∀ ws : List Text, (∀ w ∈ ws, IsWord w) → words (joinWith [' '] ws) = ws) ∧
    (∀ (arguments : List Text) (request : CommandLine.Request) (view : FileView)
      (environment : Environment) (wording : CommandLine.Wording) (options : List Text),
      CommandLine.Invocation.ofArguments arguments = .ok (.run request) →
      request.options view environment = .ok options → (∀ option ∈ options, IsWord option) →
      words (CommandLine.run view environment arguments wording).stdout = options) ∧
    ∀ (environment : Environment) (names : List Text),
      environment.overrides names =
        words (joinWith [' '] (names.filterMap environment.get?)) := by
  refine ⟨fun t ↦ ⟨fun _ ↦ isWord_of_mem_words, flatten_words t⟩, ?_, ?_, ?_, ?_, ?_⟩
  · intro before between after c d hc hd
    exact inOneWord_iff hc hd before between after
  · intro t u gap hne hspace
    exact words_append_gap hne hspace t u
  · intro ws hwords
    exact words_joinWith_of_isWord hwords
  · intro arguments request view environment wording options h hoptions hwords
    exact CommandLine.words_stdout h hoptions hwords wording
  · intro environment names
    exact environment.overrides_eq_words names

/-- An ideographic space and a next-line character separate words, a zero-width space does not. -/
theorem Text.words_maximal_lookAlike :
    "\u3000\u0085".toList ≠ [] ∧ (∀ c ∈ "\u3000\u0085".toList, isWhiteSpace c = true) ∧
    words ("-a\u200B".toList ++ "\u3000\u0085".toList ++ "\u200B-b ".toList) =
      words "-a\u200B".toList ++ words "\u200B-b ".toList ∧
    (CommandLine.run .nothing (.ofList [("JAVA_OPTS".toList, " -a\u200B\u3000-b ".toList)])
        ["conf".toList]).stdout = "-a\u200B -b\n".toList ∧
    words "-a\u200B -b\n".toList = ["-a\u200B".toList, "-b".toList] := by
  have hprinted := words_maximal.2.2.2.2.1 ["conf".toList] { path := ⟨"conf".toList⟩ } .nothing
    (.ofList [("JAVA_OPTS".toList, " -a\u200B\u3000-b ".toList)]) {}
    ["-a\u200B".toList, "-b".toList] rfl rfl (by decide)
  have hgap : ∀ c ∈ "\u3000\u0085".toList, isWhiteSpace c = true := List.all_eq_true.mp rfl
  exact ⟨by decide, hgap, words_maximal.2.2.1 _ _ _ (by decide) hgap, rfl, hprinted⟩

end LaunchOptions
