/-!
# Maps in key order

A finite map as the list of its entries, keys strictly ascending. Every listing of a map is in
key order, so a fold over it does not depend on how the map came about.

Specification: `SPEC_FULL.md`, section 3 (invalid lines, substitutions).
-/

namespace LaunchOptions

/-- The entries of a finite map by ascending key. -/
structure OrderedMap (κ υ : Type) [Ord κ] where
  toList : List (κ × υ)
  ascending : toList.Pairwise (fun a b ↦ compare a.1 b.1 = .lt)

namespace OrderedMap

variable {κ υ : Type} [Ord κ]

/-- Two maps with the same entries are equal. -/
@[ext] theorem ext {m n : OrderedMap κ υ} (h : m.toList = n.toList) : m = n := by
  cases m
  cases n
  simp_all

/-- The map without entries. -/
def empty : OrderedMap κ υ := ⟨[], .nil⟩

instance : EmptyCollection (OrderedMap κ υ) := ⟨empty⟩

/-- The number of entries. -/
def size (m : OrderedMap κ υ) : Nat := m.toList.length

/-- The value of a key in a list of entries. -/
def lookup (entries : List (κ × υ)) (k : κ) : Option υ :=
  (entries.find? (fun e ↦ compare e.1 k == .eq)).map Prod.snd

/-- The value of a key. -/
def get? (m : OrderedMap κ υ) (k : κ) : Option υ := lookup m.toList k

/-- Put an entry where its key belongs among ascending entries, in place of one with that key. -/
def place (k : κ) (v : υ) : List (κ × υ) → List (κ × υ)
  | [] => [(k, v)]
  | e :: rest =>
    match compare k e.1 with
    | .lt => (k, v) :: e :: rest
    | .eq => (k, v) :: rest
    | .gt => e :: place k v rest

/-- The keys after an entry is placed: the old ones and its own. -/
theorem mem_place {k : κ} {v : υ} {entries : List (κ × υ)} {e : κ × υ}
    (h : e ∈ place k v entries) : e = (k, v) ∨ e ∈ entries := by
  induction entries with
  | nil => simpa [place] using h
  | cons first rest ih =>
    simp only [place] at h
    split at h
    · simpa using h
    · rcases List.mem_cons.mp h with h | h <;> simp [h]
    · rcases List.mem_cons.mp h with h | h
      · simp [h]
      · rcases ih h with h | h <;> simp [h]

/-- Placing an entry keeps the keys ascending. -/
theorem ascending_place [Std.TransOrd κ] (k : κ) (v : υ) {entries : List (κ × υ)}
    (h : entries.Pairwise (fun a b ↦ compare a.1 b.1 = .lt)) :
    (place k v entries).Pairwise (fun a b ↦ compare a.1 b.1 = .lt) := by
  induction entries with
  | nil => simp [place]
  | cons first rest ih =>
    obtain ⟨hfirst, hrest⟩ := List.pairwise_cons.mp h
    simp only [place]
    split
    · next hk =>
      refine List.pairwise_cons.mpr ⟨?_, h⟩
      intro e he
      rcases List.mem_cons.mp he with rfl | he
      · exact hk
      · exact Std.TransCmp.lt_trans hk (hfirst e he)
    · next hk =>
      refine List.pairwise_cons.mpr ⟨?_, hrest⟩
      intro e he
      exact Std.TransCmp.lt_of_eq_of_lt hk (hfirst e he)
    · next hk =>
      refine List.pairwise_cons.mpr ⟨?_, ih hrest⟩
      intro e he
      rcases mem_place he with rfl | he
      · exact Std.OrientedCmp.lt_of_gt hk
      · exact hfirst e he

/-- The map with a value put under a key. -/
def insert [Std.TransOrd κ] (m : OrderedMap κ υ) (k : κ) (v : υ) : OrderedMap κ υ :=
  ⟨place k v m.toList, ascending_place k v m.ascending⟩

/-- The map with some entries put in, one after another: the last one under a key stays. -/
def insertAll [Std.TransOrd κ] (m : OrderedMap κ υ) (entries : List (κ × υ)) : OrderedMap κ υ :=
  entries.foldl (fun m e ↦ m.insert e.1 e.2) m

/-- The map of some entries: the last one under a key stays. -/
def ofList [Std.TransOrd κ] (entries : List (κ × υ)) : OrderedMap κ υ :=
  insertAll empty entries

/-- The first entry with a key has its value. -/
theorem lookup_cons (e : κ × υ) (rest : List (κ × υ)) (k : κ) :
    lookup (e :: rest) k = if compare e.1 k == .eq then some e.2 else lookup rest k := by
  unfold lookup
  rw [List.find?_cons]
  split <;> simp_all

private theorem lookup_place [Std.TransOrd κ] (k x : κ) (v : υ) (entries : List (κ × υ)) :
    lookup (place k v entries) x = if compare k x == .eq then some v else lookup entries x := by
  induction entries with
  | nil => simp [place, lookup_cons]
  | cons first rest ih =>
    simp only [place]
    split
    · rw [lookup_cons]
    · next hk =>
      have hc : compare k x = compare first.1 x := Std.TransCmp.congr_left hk
      rw [lookup_cons, lookup_cons, hc]
      split <;> rfl
    · next hk =>
      rw [lookup_cons, ih, lookup_cons]
      by_cases hx : compare first.1 x = .eq
      · have : compare k x = .gt := Std.TransCmp.congr_right hx ▸ hk
        simp [hx, this]
      · simp [hx]

/-- What is found after an insertion. -/
theorem get?_insert [Std.TransOrd κ] (m : OrderedMap κ υ) (k x : κ) (v : υ) :
    (m.insert k v).get? x = if compare k x == .eq then some v else m.get? x :=
  lookup_place k x v m.toList

end OrderedMap

end LaunchOptions
