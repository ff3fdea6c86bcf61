import LaunchOptions.OrderedMap
import Mathlib.Data.List.Sort

/-!
# Looking up keys

A map holds an entry exactly if looking up its key finds its value. So a map is known by what is
found in it. A map of some entries holds the last one under each key.
-/

namespace LaunchOptions.OrderedMap

variable {κ υ : Type} [Ord κ]

/-- Entries are looked through from the first. -/
theorem lookup_append (before after : List (κ × υ)) (k : κ) :
    lookup (before ++ after) k = (lookup before k).or (lookup after k) := by
  simp only [lookup, List.find?_append, Option.map_or]

/-- After entries are put in, the last one under a key is found, or else what was there before. -/
theorem get?_insertAll [Std.TransOrd κ] (m : OrderedMap κ υ) (entries : List (κ × υ)) (k : κ) :
    (m.insertAll entries).get? k = (lookup entries.reverse k).or (m.get? k) := by
  induction entries generalizing m with
  | nil => rfl
  | cons e rest ih =>
    have hstep : m.insertAll (e :: rest) = (m.insert e.1 e.2).insertAll rest := rfl
    rw [hstep, ih, get?_insert, List.reverse_cons, lookup_append, lookup_cons, Option.or_assoc]
    split <;> rfl

/-- The map of some entries holds the last one under each key. -/
theorem get?_ofList [Std.TransOrd κ] (entries : List (κ × υ)) (k : κ) :
    (ofList entries).get? k = lookup entries.reverse k := by
  have hempty : (empty : OrderedMap κ υ).get? k = none := rfl
  rw [ofList, get?_insertAll, hempty, Option.or_none]

/-- No two of the entries have the same key. -/
def Distinct (entries : List (κ × υ)) : Prop :=
  entries.Pairwise (fun a b ↦ compare a.1 b.1 ≠ .eq)

/-- The keys of a map are distinct. -/
theorem distinct_toList (m : OrderedMap κ υ) : Distinct m.toList :=
  m.ascending.imp fun hlt heq ↦ by
    rw [hlt] at heq
    cases heq

/-- Lists in which keys ascend are known by what is in them. -/
theorem eq_of_mem_iff {α : Type} [Std.TransOrd κ] (key : α → κ) {l l' : List α}
    (h : l.Pairwise (fun a b ↦ compare (key a) (key b) = .lt))
    (h' : l'.Pairwise (fun a b ↦ compare (key a) (key b) = .lt)) (hmem : ∀ a, a ∈ l ↔ a ∈ l') :
    l = l' := by
  let before (a b : α) : Prop := compare (key a) (key b) = .lt
  have : Std.Irrefl before := ⟨fun _ ha ↦ Std.OrientedCmp.not_lt_of_lt ha ha⟩
  have : Std.Antisymm before := ⟨fun _ _ hab hba ↦ absurd hba (Std.OrientedCmp.not_lt_of_lt hab)⟩
  exact List.Pairwise.eq_of_mem_iff (r := before) h h' hmem

variable [Std.LawfulEqOrd κ]

private theorem lookup_eq_some_iff {entries : List (κ × υ)} {k : κ} {v : υ}
    (h : Distinct entries) : lookup entries k = some v ↔ (k, v) ∈ entries := by
  induction entries with
  | nil => simp [lookup]
  | cons e rest ih =>
    obtain ⟨hfirst, hrest⟩ := List.pairwise_cons.mp h
    rw [lookup_cons]
    by_cases hk : compare e.1 k = .eq
    · have hek : e.1 = k := Std.LawfulEqOrd.eq_of_compare hk
      have hnot : (k, v) ∉ rest := by
        intro hmem
        exact hfirst (k, v) hmem hk
      subst hek
      simp [hnot, Prod.ext_iff, eq_comm]
    · have hne : (k, v) ≠ e := by
        rintro rfl
        exact hk Std.ReflCmp.compare_self
      simp [hk, ih hrest, hne]

/-- A value is found under a key exactly if the map has that entry. -/
theorem get?_eq_some_iff {m : OrderedMap κ υ} {k : κ} {v : υ} :
    m.get? k = some v ↔ (k, v) ∈ m.toList :=
  lookup_eq_some_iff m.distinct_toList

/-- In whichever order the entries of a map are looked through, the same is found. -/
theorem lookup_perm [Std.TransOrd κ] {m : OrderedMap κ υ} {entries : List (κ × υ)}
    (h : entries.Perm m.toList) (k : κ) : lookup entries k = m.get? k := by
  have hdistinct : Distinct entries :=
    h.symm.pairwise m.distinct_toList fun hab hba ↦ hab (Std.OrientedCmp.eq_symm hba)
  ext v
  rw [lookup_eq_some_iff hdistinct, get?_eq_some_iff, h.mem_iff]

/-- Maps in which the same is found are equal. -/
theorem ext_get? [Std.TransOrd κ] {m n : OrderedMap κ υ}
    (h : ∀ k v, m.get? k = some v ↔ n.get? k = some v) : m = n := by
  apply ext
  apply eq_of_mem_iff Prod.fst m.ascending n.ascending
  rintro ⟨k, v⟩
  rw [← get?_eq_some_iff, ← get?_eq_some_iff]
  exact h k v

/-- Maps in which the same is found under some keys have the same entries with these keys. -/
theorem filter_toList_congr [Std.TransOrd κ] {m n : OrderedMap κ υ} {p : κ → Bool}
    (h : ∀ k, p k → m.get? k = n.get? k) :
    m.toList.filter (p ·.1) = n.toList.filter (p ·.1) := by
  let part (m : OrderedMap κ υ) : OrderedMap κ υ := ⟨m.toList.filter (p ·.1), m.ascending.filter _⟩
  have hpart (m : OrderedMap κ υ) (k : κ) (v : υ) :
      (part m).get? k = some v ↔ m.get? k = some v ∧ p k := by
    rw [get?_eq_some_iff, get?_eq_some_iff, List.mem_filter]
  suffices part m = part n from congrArg toList this
  apply ext_get?
  intro k v
  rw [hpart, hpart]
  exact and_congr_left fun hk ↦ by rw [h k hk]

end LaunchOptions.OrderedMap
