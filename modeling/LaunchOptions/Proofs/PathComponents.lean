import LaunchOptions.Path
import LaunchOptions.Proofs.Pieces
import LaunchOptions.Text.Utf8
import Mathlib.Data.List.DropRight

/-!
# The components of joined paths and of parents

Joining a name to a path adds the components of the name, and the parent of a joined path has the
components of the path that it was joined to, however that is spelled. The parent can be spelled
shorter, since what names nothing at its end is left out.
-/

namespace LaunchOptions

/-- The bytes of two texts put together are those of both. -/
theorem Utf8.length_encode_append (t u : Text) :
    (encode (t ++ u)).length = (encode t).length + (encode u).length := by
  simp only [encode, List.flatMap_append, List.length_append]

namespace Path

variable {p : Path} {name : Text}

/-- Pieces are cut at each separator. -/
theorem pieces_eq_splitOn (t : Text) : t.pieces isSeparator = t.splitOn '/' := by
  rw [Text.pieces_eq_splitOnP, List.splitOn_eq_splitOnP]
  rfl

/-- The pieces of a text join to it. -/
theorem joinWith_pieces (t : Text) : Text.joinWith ['/'] (t.pieces isSeparator) = t := by
  rw [Text.joinWith_eq_intercalate, pieces_eq_splitOn, List.intercalate_splitOn]

/-- What texts without separators join to has them as its pieces. -/
theorem pieces_joinWith {ts : List Text} (h : ∀ t ∈ ts, '/' ∉ t) (hne : ts ≠ []) :
    (Text.joinWith ['/'] ts).pieces isSeparator = ts := by
  rw [Text.joinWith_eq_intercalate, pieces_eq_splitOn, List.splitOn_intercalate '/' h hne]

/-- No piece of a text has a separator in it. -/
theorem not_mem_of_mem_pieces {t piece : Text} (h : piece ∈ t.pieces isSeparator) :
    '/' ∉ piece := by
  intro hc
  have := Text.not_of_mem_pieces h hc
  simp [isSeparator] at this

/-! ### Components and pieces -/

/-- The components that some pieces stand for, at the beginning of a path. -/
def componentsOf (pieces : List Text) : List Component :=
  (if pieces.head? = some [] then [.root]
    else if pieces.head? = some ['.'] then [.here] else []) ++
    (pieces.filter (fun s ↦ !isIdle s)).map ofPiece

/-- The components that a text adds to a path. -/
def componentsWithin (t : Text) : List Component :=
  ((t.pieces isSeparator).filter (fun s ↦ !isIdle s)).map ofPiece

/-- A path is absolute if its first piece is empty. -/
theorem isAbsolute_iff (h : p.spelling ≠ []) : p.isAbsolute ↔ p.pieces.head? = some [] := by
  obtain ⟨spelling⟩ := p
  obtain ⟨c, rest, rfl⟩ := List.exists_cons_of_ne_nil h
  by_cases hc : c = '/'
  · simp [isAbsolute, pieces, Text.pieces, isSeparator, hc]
  · simp only [isAbsolute, pieces, Text.pieces, isSeparator, hc]
    cases Text.pieces isSeparator rest <;> simp [hc]

/-- The components of a path are read off its pieces. -/
theorem components_eq (h : p.spelling ≠ []) : p.components = componentsOf p.pieces := by
  have habsolute := isAbsolute_iff h
  unfold components componentsOf
  simp only [habsolute]

/-- Pieces after the first count for themselves. -/
theorem componentsOf_append {pieces : List Text} (h : pieces ≠ []) (more : List Text) :
    componentsOf (pieces ++ more) =
      componentsOf pieces ++ (more.filter (fun s ↦ !isIdle s)).map ofPiece := by
  simp only [componentsOf, List.head?_append_of_ne_nil _ h, List.filter_append, List.map_append,
    List.append_assoc]

/-- Idle pieces at the end do not count, the first one apart. -/
theorem componentsOf_rdropWhile (first : Text) (more : List Text) :
    componentsOf (first :: more.rdropWhile isIdle) = componentsOf (first :: more) := by
  have hidle : (more.rtakeWhile isIdle).filter (fun s ↦ !isIdle s) = [] := by
    apply List.filter_eq_nil_iff.mpr
    intro s hs
    simp [List.mem_rtakeWhile_imp hs]
  have hmore := componentsOf_append (List.cons_ne_nil first (more.rdropWhile isIdle))
    (more.rtakeWhile isIdle)
  rw [List.cons_append, List.rdropWhile_append_rtakeWhile, hidle] at hmore
  simpa using hmore.symm

/-! ### Joined paths -/

/-- The spelling of a path without a separator at its end. -/
def stem (p : Path) : Text :=
  if p.spelling.getLast? = some '/' then p.spelling.dropLast else p.spelling

private theorem stem_isPrefix (p : Path) : p.stem <+: p.spelling := by
  unfold stem
  split
  · exact List.dropLast_prefix _
  · exact List.prefix_rfl

/-- A path is its stem, or there is one separator more. -/
theorem spelling_eq (p : Path) : p.spelling = p.stem ∨ p.spelling = p.stem ++ ['/'] := by
  unfold stem
  split
  · next h => exact .inr (List.dropLast_append_getLast? '/' h).symm
  · exact .inl rfl

/-- A joined path is the stem and the name, with a separator between. -/
theorem spelling_join (h : p.spelling ≠ []) (name : Text) :
    (p.join name).spelling = p.stem ++ '/' :: name := by
  unfold join stem
  cases hlast : p.spelling.getLast? with
  | none => exact absurd (List.getLast?_eq_none_iff.mp hlast) h
  | some c =>
    by_cases hc : c = '/'
    · subst hc
      have hdrop := List.dropLast_append_getLast? '/' hlast
      simp only [isSeparator, decide_true, if_true]
      rw [← hdrop]
      simp
    · simp [isSeparator, hc]

/-- The pieces of a joined path are those of its stem and of the name. -/
theorem pieces_join (h : p.spelling ≠ []) (name : Text) :
    (p.join name).pieces = p.stem.pieces isSeparator ++ name.pieces isSeparator := by
  rw [pieces, spelling_join h, Text.pieces_append_cons rfl]

/-- A separator at the end does not count as a component. -/
theorem components_eq_stem (h : p.spelling ≠ []) :
    p.components = componentsOf (p.stem.pieces isSeparator) := by
  rw [components_eq h, pieces]
  rcases p.spelling_eq with hs | hs
  · rw [hs]
  · rw [hs, Text.pieces_append_cons rfl, componentsOf_append (Text.pieces_ne_nil _ _)]
    simp [Text.pieces, isIdle]

/-- A joined path is not empty. -/
theorem spelling_join_ne_nil (h : p.spelling ≠ []) : (p.join name).spelling ≠ [] := by
  simp [spelling_join h]

/-- Joining a name adds its components. -/
theorem components_join (h : p.spelling ≠ []) (name : Text) :
    (p.join name).components = p.components ++ componentsWithin name := by
  rw [components_eq (spelling_join_ne_nil h), pieces_join h,
    componentsOf_append (Text.pieces_ne_nil _ _), components_eq_stem h, componentsWithin]

/-! ### Joined names -/

/-- The piece is a component of its own that is a name. -/
def IsName (name : Text) : Prop := isIdle name = false ∧ name ≠ ['.', '.'] ∧ '/' ∉ name

instance : DecidablePred IsName := fun name ↦
  inferInstanceAs (Decidable (isIdle name = false ∧ name ≠ ['.', '.'] ∧ '/' ∉ name))

/-- A name is not empty. -/
theorem IsName.ne_nil (h : IsName name) : name ≠ [] := by
  rintro rfl
  cases h.1

/-- A text without a separator is a name, if it has three characters or more. -/
theorem isName_of_lt_length (hlen : 2 < name.length) (hsep : '/' ∉ name) : IsName name := by
  have hne (t : Text) (ht : t.length ≤ 2) : name ≠ t := by
    rintro rfl
    omega
  refine ⟨?_, hne _ (by decide), hsep⟩
  simp [isIdle, hne [] (by decide), hne ['.'] (by decide)]

private theorem pieces_of_not_mem {t : Text} (h : '/' ∉ t) : t.pieces isSeparator = [t] :=
  Text.pieces_of_forall fun _ hc ↦ decide_eq_false fun he ↦ h (he ▸ hc)

private theorem IsName.filter_map (h : IsName name) :
    ([name].filter (fun s ↦ !isIdle s)).map ofPiece = [.name name] := by
  simp [h.1, ofPiece, h.2.1]

/-- A name after some pieces is one component more. -/
theorem componentsOf_append_name (h : IsName name) (pieces : List Text) :
    componentsOf (pieces ++ [name]) = componentsOf pieces ++ [.name name] := by
  by_cases hpieces : pieces = []
  · have hdot : name ≠ ['.'] := by
      rintro rfl
      cases h.1
    subst hpieces
    rw [List.nil_append, componentsOf, h.filter_map]
    simp [componentsOf, h.ne_nil, hdot]
  · rw [componentsOf_append hpieces, h.filter_map]

/-- Joining a name adds it as a component. -/
theorem components_join_name (h : IsName name) (p : Path) :
    (p.join name).components = p.components ++ [.name name] := by
  obtain ⟨spelling⟩ := p
  by_cases hne : spelling = []
  · subst hne
    have hjoin : Path.join ⟨[]⟩ name = ⟨name⟩ := rfl
    rw [hjoin, components_eq h.ne_nil, pieces, pieces_of_not_mem h.2.2,
      ← List.nil_append [name], componentsOf_append_name h]
    rfl
  · rw [components_join hne, componentsWithin, pieces_of_not_mem h.2.2, h.filter_map]

/-! ### Parents -/

/-- The pieces that a parent keeps of the pieces before the last one. -/
def keptPieces (first : Text) (more : List Text) : List Text := first :: more.rdropWhile isIdle

private theorem keptPieces_isPrefix (first : Text) (more : List Text) :
    keptPieces first more <+: first :: more :=
  List.cons_prefix_cons.mpr ⟨rfl, List.rdropWhile_prefix _ _⟩

/-- The parent of a path is spelled by the pieces that are kept. -/
theorem parent_eq {first : Text} {more : List Text} (h : p.pieces.dropLast = first :: more) :
    p.parent = if keptPieces first more = [[]] then ⟨['/']⟩
      else ⟨Text.joinWith ['/'] (keptPieces first more)⟩ := by
  unfold parent
  rw [h]
  rfl

/-- The parent of a path has the components of the text before its last piece, and is spelled no
longer than that text. -/
theorem parent_spec {t : Text} (h : p.pieces.dropLast = t.pieces isSeparator) :
    p.parent.spelling ≠ [] ∧ p.parent.components = componentsOf (t.pieces isSeparator) ∧
      p.parent.stem <+: t := by
  obtain ⟨first, more, hpieces⟩ := List.exists_cons_of_ne_nil (Text.pieces_ne_nil isSeparator t)
  rw [parent_eq (h.trans hpieces), hpieces, ← componentsOf_rdropWhile, ← keptPieces]
  split
  · next hkept => exact ⟨by simp, by rw [hkept]; rfl, List.nil_prefix⟩
  · next hkept =>
    have hfront := keptPieces_isPrefix first more
    rw [← hpieces] at hfront
    have hcut : (Text.joinWith ['/'] (keptPieces first more)).pieces isSeparator =
        keptPieces first more := by
      refine pieces_joinWith (fun piece hp ↦ ?_) (List.cons_ne_nil _ _)
      exact not_mem_of_mem_pieces (hfront.subset hp)
    have hne : Text.joinWith ['/'] (keptPieces first more) ≠ [] := by
      intro hnil
      rw [hnil] at hcut
      exact hkept hcut.symm
    refine ⟨hne, ?_, (stem_isPrefix _).trans ?_⟩
    · rw [components_eq hne, pieces, hcut]
    · have hjoined := Text.joinWith_isPrefix ['/'] hfront
      rwa [joinWith_pieces] at hjoined

example : (Path.mk "root//jvm.options".toList).parent = ⟨"root".toList⟩ := by decide
example : (Path.mk "./jvm.options".toList).parent = ⟨".".toList⟩ := by decide
example : (Path.mk "/jvm.options".toList).parent = ⟨"/".toList⟩ := by decide

/-- The pieces before a name are the components of the parent. -/
theorem components_parent_of_pieces {front : List Text} (h : p.pieces = front ++ [name]) :
    p.parent.components = componentsOf front := by
  have hdrop : p.pieces.dropLast = front := by rw [h, List.dropLast_concat]
  by_cases hfront : front = []
  · simp only [parent, hdrop, hfront]
    rfl
  · have hpieces : (Text.joinWith ['/'] front).pieces isSeparator = front := by
      refine pieces_joinWith (fun piece hmem ↦ ?_) hfront
      exact not_mem_of_mem_pieces (h ▸ List.mem_append_left _ hmem)
    rw [(parent_spec (hdrop.trans hpieces.symm)).2.1, hpieces]

/-- A path without a separator has the empty parent. -/
theorem parent_of_not_mem (h : '/' ∉ p.spelling) : p.parent = ⟨[]⟩ := by
  rw [parent, pieces, pieces_of_not_mem h]
  rfl

/-- Before a name that is joined there are the pieces of the stem. -/
theorem dropLast_pieces_join (h : p.spelling ≠ []) (hname : '/' ∉ name) :
    (p.join name).pieces.dropLast = p.stem.pieces isSeparator := by
  rw [pieces_join h, pieces_of_not_mem hname, List.dropLast_concat]

/-- The parent of a path that a name was joined to has the components of that path. -/
theorem components_parent_join (h : p.spelling ≠ []) (hname : '/' ∉ name) :
    (p.join name).parent.components = p.components := by
  rw [(parent_spec (dropLast_pieces_join h hname)).2.1, components_eq_stem h]

/-! ### Length -/

/-- The bytes of the stem of a path. -/
def stemLength (p : Path) : Nat := (Utf8.encode p.stem).length

/-- The length of a joined path, by those of the stem and the name. -/
theorem length_encode_join (h : p.spelling ≠ []) (name : Text) :
    (Utf8.encode (p.join name).spelling).length =
      p.stemLength + (Utf8.encode ('/' :: name)).length := by
  rw [spelling_join h, Utf8.length_encode_append, stemLength]

/-- What a name adds to the stem of a path does not depend on the path. -/
theorem stemLength_join (h : p.spelling ≠ []) (name : Text) :
    (p.join name).stemLength = p.stemLength + stemLength ⟨'/' :: name⟩ := by
  have hstem : (p.join name).stem = p.stem ++ stem ⟨'/' :: name⟩ := by
    simp only [stem, spelling_join h, List.getLast?_append_cons, List.dropLast_append_cons]
    split <;> rfl
  rw [stemLength, hstem, Utf8.length_encode_append, stemLength, stemLength]

/-- The parent of a joined path is not spelled longer than the path that was joined to. -/
theorem stemLength_parent_join_le (h : p.spelling ≠ []) (hname : '/' ∉ name) :
    (p.join name).parent.stemLength ≤ p.stemLength := by
  obtain ⟨rest, hrest⟩ := (parent_spec (dropLast_pieces_join h hname)).2.2
  rw [stemLength, stemLength, ← hrest, Utf8.length_encode_append]
  exact Nat.le_add_right _ _

/-! ### Respelled paths -/

/-- A path and another spelling of it, the first one, which is not longer. -/
structure Respells (q p : Path) : Prop where
  spelling_ne_nil : q.spelling ≠ []
  spelling_ne_nil_right : p.spelling ≠ []
  components_eq : q.components = p.components
  stemLength_le : q.stemLength ≤ p.stemLength

/-- The parent of a joined path is the path that was joined to, spelled anew. -/
theorem respells_parent_join (h : p.spelling ≠ []) (hname : '/' ∉ name) :
    Respells (p.join name).parent p where
  spelling_ne_nil := (parent_spec (dropLast_pieces_join h hname)).1
  spelling_ne_nil_right := h
  components_eq := components_parent_join h hname
  stemLength_le := stemLength_parent_join_le h hname

namespace Respells

variable {q : Path}

/-- What is joined to both is joined to the respelled path. -/
theorem join (h : Respells q p) (name : Text) : Respells (q.join name) (p.join name) where
  spelling_ne_nil := spelling_join_ne_nil h.spelling_ne_nil
  spelling_ne_nil_right := spelling_join_ne_nil h.spelling_ne_nil_right
  components_eq := by
    rw [components_join h.spelling_ne_nil, components_join h.spelling_ne_nil_right,
      h.components_eq]
  stemLength_le := by
    rw [stemLength_join h.spelling_ne_nil, stemLength_join h.spelling_ne_nil_right]
    exact Nat.add_le_add_right h.stemLength_le _

/-- A path that respells another makes no longer paths when names are joined to it. -/
theorem length_encode_join_le (h : Respells q p) (name : Text) :
    (Utf8.encode (q.join name).spelling).length ≤ (Utf8.encode (p.join name).spelling).length := by
  rw [length_encode_join h.spelling_ne_nil, length_encode_join h.spelling_ne_nil_right]
  exact Nat.add_le_add_right h.stemLength_le _

end Respells

end Path

end LaunchOptions
