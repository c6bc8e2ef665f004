import Mathlib.Data.List.Basic
import ObjectModel.PropertyTable
import ObjectModel.Collection

/-!
# Laws of keyed slots

`find?` is the view of slots as a finite map: an entry is listed exactly when `find?` gives it,
and each operation has one equation through `find?`.

    (k, b) ∈ s.entries ↔ s.find? k = some b                                   (mem_entries)
    (s.insert k b).find? k' = if k' = k then some b else s.find? k'           (find?_insert)
    (s.erase k).find? k' = if k' = k then none else s.find? k'                (find?_erase)

The order of the entries is told by `entries_insert_of_mem`, `entries_insert_of_not_mem` and
`entries_erase`.
-/

namespace ObjectModel.Slots

variable {κ β : Type} [Ord κ]

/-- A key has a content exactly when some cell holds an entry with both. -/
theorem find?_eq_some_iff {s : Slots κ β} {k : κ} {b : β} :
    s.find? k = some b ↔ ∃ i : Nat, s.cells[i]? = some (some (k, b)) := by
  have hind := s.indexed k
  unfold find? position? entryAt?
  constructor
  · intro h
    cases hi : s.index[k]? with
    | none => rw [hi] at h; simp at h
    | some i =>
      obtain ⟨b', hb'⟩ := (hind i).1 hi
      rw [hi] at h
      simp only [Option.bind_some, hb', Option.join_some, Option.map_some, Option.some.injEq] at h
      subst h
      exact ⟨i, hb'⟩
  · rintro ⟨i, hi⟩
    have hk := (hind i).2 ⟨b, hi⟩
    simp [hk, hi]

/-- A key stands in one cell only. -/
theorem cell_unique {s : Slots κ β} {k : κ} {b b' : β} {i j : Nat}
    (hi : s.cells[i]? = some (some (k, b))) (hj : s.cells[j]? = some (some (k, b'))) : i = j := by
  have h₁ := (s.indexed k i).2 ⟨b, hi⟩
  have h₂ := (s.indexed k j).2 ⟨b', hj⟩
  rw [h₁] at h₂
  exact Option.some.inj h₂

theorem mem_entries {s : Slots κ β} {k : κ} {b : β} :
    (k, b) ∈ s.entries ↔ s.find? k = some b := by
  rw [find?_eq_some_iff]
  unfold entries
  simp only [List.mem_filterMap, id_eq, exists_eq_right, Array.mem_toList_iff]
  exact Array.mem_iff_getElem?

/-- The index finds the cell that a search from the first cell on finds. -/
theorem position?_eq_findIdx? {s : Slots κ β} {k : κ} {p : κ × β → Bool}
    (hp : ∀ e ∈ s.entries, p e = true ↔ e.1 = k) :
    s.position? k = s.cells.toList.findIdx? fun cell => cell.any p := by
  have hholds (i : Nat) (hi : i < s.cells.toList.length) :
      (s.cells.toList[i].any p) = true ↔ s.index[k]? = some i := by
    have hcell : s.cells[i]? = some s.cells.toList[i] := by
      rw [← Array.getElem?_toList, List.getElem?_eq_getElem hi]
    rw [s.indexed k i, hcell]
    cases hat : s.cells.toList[i] with
    | none => simp
    | some e =>
      rw [hat] at hcell
      have hmem : e ∈ s.entries := mem_entries.2 (find?_eq_some_iff.2 ⟨i, hcell⟩)
      rw [Option.any_some, hp e hmem]
      constructor
      · rintro rfl
        exact ⟨e.2, rfl⟩
      · rintro ⟨b, hb⟩
        rw [Option.some.inj (Option.some.inj hb)]
  apply Option.ext
  intro i
  rw [List.findIdx?_eq_some_iff_getElem]
  constructor
  · intro hindex
    obtain ⟨b, hb⟩ := (s.indexed k i).1 hindex
    have hi : i < s.cells.toList.length := by simpa using (Array.getElem?_eq_some_iff.1 hb).1
    refine ⟨hi, (hholds i hi).2 hindex, fun j hj hat => ?_⟩
    have hsame : s.position? k = some j := (hholds j (Nat.lt_trans hj hi)).1 hat
    rw [hindex, Option.some.injEq] at hsame
    omega
  · rintro ⟨hi, hat, -⟩
    exact (hholds i hi).1 hat

theorem find?_congr {s s' : Slots κ β} (h : s.entries = s'.entries) (k : κ) :
    s.find? k = s'.find? k := by
  apply Option.ext
  intro b
  rw [← mem_entries, ← mem_entries, h]

theorem contains_eq (s : Slots κ β) (k : κ) : s.contains k = (s.find? k).isSome := by
  unfold contains find?
  cases hi : s.position? k with
  | none => rfl
  | some i =>
    obtain ⟨b, hb⟩ := (s.indexed k i).1 hi
    simp [entryAt?, hb]

theorem mem_keys {s : Slots κ β} {k : κ} :
    k ∈ s.entries.map Prod.fst ↔ s.contains k = true := by
  rw [contains_eq, Option.isSome_iff_exists, List.mem_map]
  constructor
  · rintro ⟨e, he, rfl⟩
    exact ⟨e.2, mem_entries.1 he⟩
  · rintro ⟨b, hb⟩
    exact ⟨(k, b), mem_entries.2 hb, rfl⟩

/-- No key has two entries. -/
theorem nodup_keys (s : Slots κ β) : (s.entries.map Prod.fst).Nodup := by
  unfold List.Nodup entries
  rw [List.pairwise_map, List.pairwise_filterMap, List.pairwise_iff_getElem]
  rintro i j hi hj hij ⟨k, b⟩ hb ⟨k', b'⟩ hb' hk
  have hcell (n : Nat) (hn : n < s.cells.toList.length) {e : κ × β}
      (he : id s.cells.toList[n] = some e) : s.cells[n]? = some (some e) := by
    rw [← Array.getElem?_toList, List.getElem?_eq_getElem hn]
    exact congrArg some he
  have hk : k = k' := hk
  subst hk
  have hsame := cell_unique (hcell i hi hb) (hcell j hj hb')
  omega

variable [Std.TransOrd κ]

@[simp]
theorem find?_empty (k : κ) : (empty : Slots κ β).find? k = none := by
  simp [find?, position?, empty]

theorem find?_of_isEmpty {s : Slots κ β} (h : s.isEmpty = true) (k : κ) : s.find? k = none := by
  have hindex : s.index[k]? = none := Std.TreeMap.getElem?_of_isEmpty h
  simp [find?, position?, hindex]

theorem entries_eq_nil_of_isEmpty {s : Slots κ β} (h : s.isEmpty = true) : s.entries = [] := by
  rw [List.eq_nil_iff_forall_not_mem]
  rintro ⟨k, b⟩ hmem
  rw [mem_entries, find?_of_isEmpty h] at hmem
  cases hmem

variable [Std.LawfulEqOrd κ]

/-- The index counts the entries. -/
theorem size_eq (s : Slots κ β) : s.size = s.entries.length := by
  have hkeys : s.index.keys.Perm (s.entries.map Prod.fst) := by
    refine (List.perm_ext_iff_of_nodup s.index.nodup_keys s.nodup_keys).2 fun k => ?_
    rw [mem_keys, Std.TreeMap.mem_keys, Std.TreeMap.mem_iff_isSome_getElem?]
    rfl
  rw [size, ← Std.TreeMap.length_keys, hkeys.length_eq, List.length_map]

/-- Replacing moves no key to another cell. -/
theorem position?_insert (s : Slots κ β) {k : κ} (hk : s.contains k = true) (b : β) (k' : κ) :
    (s.insert k b).position? k' = s.position? k' := by
  unfold insert
  split
  · rfl
  · next hnone =>
    rw [contains, position?, hnone] at hk
    cases hk

variable [DecidableEq κ]

@[simp]
theorem find?_insert (s : Slots κ β) (k k' : κ) (b : β) :
    (s.insert k b).find? k' = if k' = k then some b else s.find? k' := by
  apply Option.ext
  intro b'
  rw [find?_eq_some_iff]
  unfold insert
  split
  · next i hi =>
    obtain ⟨old, hold⟩ := (s.indexed k i).1 hi
    by_cases hk : k' = k
    · subst hk
      simp only [if_true, Option.some.injEq]
      constructor
      · rintro ⟨j, hj⟩
        have := fun hj : s.cells[j]? = some (some (k', b')) => cell_unique hold hj
        grind
      · rintro rfl
        exact ⟨i, by grind⟩
    · rw [if_neg hk, find?_eq_some_iff]
      constructor
      · rintro ⟨j, hj⟩
        exact ⟨j, by grind⟩
      · rintro ⟨j, hj⟩
        exact ⟨j, by grind⟩
  · next hi =>
    have hnew : ∀ (j : Nat) (b : β), s.cells[j]? ≠ some (some (k, b)) := by
      intro j b hj
      have := (s.indexed k j).2 ⟨b, hj⟩
      rw [hi] at this
      cases this
    by_cases hk : k' = k
    · subst hk
      simp only [if_true, Option.some.injEq, Array.getElem?_push]
      constructor
      · rintro ⟨j, hj⟩
        have := hnew j b'
        grind
      · rintro rfl
        exact ⟨s.cells.size, by simp⟩
    · rw [if_neg hk, find?_eq_some_iff]
      simp only [Array.getElem?_push]
      constructor
      · rintro ⟨j, hj⟩
        exact ⟨j, by grind⟩
      · rintro ⟨j, hj⟩
        exact ⟨j, by grind⟩

@[simp]
theorem find?_erase (s : Slots κ β) (k k' : κ) :
    (s.erase k).find? k' = if k' = k then none else s.find? k' := by
  apply Option.ext
  intro b'
  rw [find?_eq_some_iff]
  unfold erase
  split
  · next i hi =>
    obtain ⟨old, hold⟩ := (s.indexed k i).1 hi
    by_cases hk : k' = k
    · subst hk
      simp only [if_true, reduceCtorEq, iff_false, not_exists]
      intro j hj
      have := fun hj : s.cells[j]? = some (some (k', b')) => cell_unique hold hj
      grind
    · rw [if_neg hk, find?_eq_some_iff]
      constructor
      · rintro ⟨j, hj⟩
        exact ⟨j, by grind⟩
      · rintro ⟨j, hj⟩
        exact ⟨j, by grind⟩
  · next hi =>
    rw [← find?_eq_some_iff]
    by_cases hk : k' = k
    · subst hk
      have : s.find? k' = none := by simp [find?, position?, hi]
      simp [this]
    · rw [if_neg hk]

/-- What is found after adding entries was there before or is one of them. -/
theorem find?_insertAll_cases {s : Slots κ β} {es : List (κ × β)} {k : κ} {b : β}
    (h : (s.insertAll es).find? k = some b) : s.find? k = some b ∨ (k, b) ∈ es := by
  induction es generalizing s with
  | nil => exact Or.inl h
  | cons e es ih =>
    rcases ih h with h' | h'
    · rw [find?_insert] at h'
      split at h'
      · next hk =>
        cases h'
        exact Or.inr (by simp [hk])
      · exact Or.inl h'
    · exact Or.inr (List.mem_cons_of_mem _ h')

theorem find?_insertAll_of_not_mem {s : Slots κ β} {es : List (κ × β)} {k : κ}
    (hk : k ∉ es.map Prod.fst) :
    (s.insertAll es).find? k = s.find? k := by
  induction es generalizing s with
  | nil => rfl
  | cons e es ih =>
    simp only [List.map_cons, List.mem_cons, not_or] at hk
    show ((s.insert e.1 e.2).insertAll es).find? k = s.find? k
    rw [ih hk.2, find?_insert, if_neg hk.1]

theorem find?_insertAll_of_mem {s : Slots κ β} {es : List (κ × β)} {k : κ}
    (hk : k ∈ es.map Prod.fst) :
    ∃ b, (k, b) ∈ es ∧ (s.insertAll es).find? k = some b := by
  induction es generalizing s with
  | nil => cases hk
  | cons e es ih =>
    show ∃ b, (k, b) ∈ e :: es ∧ ((s.insert e.1 e.2).insertAll es).find? k = some b
    by_cases hrest : k ∈ es.map Prod.fst
    · obtain ⟨b, hmem, hfind⟩ := ih (s := s.insert e.1 e.2) hrest
      exact ⟨b, List.mem_cons_of_mem _ hmem, hfind⟩
    · have hhead : k = e.1 := (List.mem_cons.1 hk).resolve_right hrest
      subst hhead
      refine ⟨e.2, List.mem_cons_self, ?_⟩
      rw [find?_insertAll_of_not_mem hrest, find?_insert, if_pos rfl]

end ObjectModel.Slots

/-! ## Entries in their order -/

namespace ObjectModel.Slots

variable {κ β : Type} [DecidableEq κ]

/-- Listed cells after one of them, the only one of its key, was written. -/
theorem filterMap_set {cells : List (Option (κ × β))} {i : Nat} {k : κ} {b : β}
    (hi : cells[i]? = some (some (k, b)))
    (hunique : ∀ j b', cells[j]? = some (some (k, b')) → j = i) (cell : Option (κ × β)) :
    (cells.set i cell).filterMap id =
      (cells.filterMap id).filterMap fun e => if e.1 = k then cell else some e := by
  induction cells generalizing i with
  | nil => simp at hi
  | cons first rest ih =>
    cases i with
    | zero =>
      obtain rfl : first = some (k, b) := by simpa using hi
      have hrest : (rest.filterMap id).filterMap (fun e => if e.1 = k then cell else some e) =
          rest.filterMap id := by
        rw [List.filterMap_filterMap]
        refine List.filterMap_congr fun c hc => ?_
        obtain ⟨j, hj⟩ := List.getElem?_of_mem hc
        cases c with
        | none => rfl
        | some e =>
          have hne : e.1 ≠ k := by
            rintro rfl
            exact absurd (hunique (j + 1) e.2 (by simpa using hj)) (by omega)
          simp [hne]
      rw [List.set_cons_zero, List.filterMap_cons]
      cases cell <;> simpa using hrest.symm
    | succ i =>
      have hstep := ih (i := i) (by simpa using hi) fun j b' hj => by
        have := hunique (j + 1) b' (by simpa using hj)
        omega
      rw [List.set_cons_succ, List.filterMap_cons, List.filterMap_cons, hstep]
      cases first with
      | none => rfl
      | some e =>
        have hne : e.1 ≠ k := by
          rintro rfl
          exact absurd (hunique 0 e.2 rfl) (by omega)
        simp [hne]

variable [Ord κ]

theorem entries_write {s : Slots κ β} {k : κ} {i : Nat} (hi : s.index[k]? = some i)
    (cell : Option (κ × β)) :
    (s.cells.setIfInBounds i cell).toList.filterMap id =
      s.entries.filterMap fun e => if e.1 = k then cell else some e := by
  obtain ⟨b, hb⟩ := (s.indexed k i).1 hi
  rw [Array.toList_setIfInBounds]
  refine filterMap_set (by simpa using hb) (fun j b' hj => ?_) cell
  exact cell_unique (by simpa using hj) hb

variable [Std.TransOrd κ] [Std.LawfulEqOrd κ]

/-- A key that is there keeps its place. -/
theorem entries_insert_of_mem {s : Slots κ β} {k : κ} (hk : (s.find? k).isSome = true) (b : β) :
    (s.insert k b).entries = s.entries.map fun e => if e.1 = k then (k, b) else e := by
  unfold insert
  split
  · next i hi =>
    refine (entries_write hi _).trans ?_
    rw [← List.filterMap_eq_map]
    refine List.filterMap_congr fun e _ => ?_
    by_cases he : e.1 = k <;> simp [he]
  · next hi => simp [find?, position?, hi] at hk

omit [DecidableEq κ] in
/-- A key that is not there comes last. -/
theorem entries_insert_of_not_mem {s : Slots κ β} {k : κ} (hk : s.find? k = none) (b : β) :
    (s.insert k b).entries = s.entries ++ [(k, b)] := by
  unfold insert
  split
  · next i hi =>
    obtain ⟨b', hb'⟩ := (s.indexed k i).1 hi
    rw [find?_eq_some_iff.2 ⟨i, hb'⟩] at hk
    cases hk
  · simp [entries]

theorem entries_erase (s : Slots κ β) (k : κ) :
    (s.erase k).entries = s.entries.filter fun e => e.1 ≠ k := by
  unfold erase
  split
  · next i hi =>
    refine (entries_write hi _).trans ?_
    rw [← List.filterMap_eq_filter]
    refine List.filterMap_congr fun e _ => ?_
    by_cases he : e.1 = k <;> simp [he, Option.guard]
  · next hi =>
    symm
    rw [List.filter_eq_self]
    intro e he
    have hfind : s.find? e.1 = some e.2 := mem_entries.1 he
    have hne : e.1 ≠ k := by
      rintro rfl
      simp [find?, position?, hi] at hfind
    simpa using hne

/-- New entries come after the old ones, in their order. -/
theorem entries_insertAll {s : Slots κ β} {es : List (κ × β)} (hnodup : (es.map Prod.fst).Nodup)
    (hnew : ∀ e ∈ es, s.find? e.1 = none) : (s.insertAll es).entries = s.entries ++ es := by
  induction es generalizing s with
  | nil => exact (List.append_nil _).symm
  | cons e es ih =>
    rw [List.map_cons, List.nodup_cons] at hnodup
    have hrest : ∀ e' ∈ es, (s.insert e.1 e.2).find? e'.1 = none := by
      intro e' he'
      have hne : e'.1 ≠ e.1 := fun heq => hnodup.1 (heq ▸ List.mem_map_of_mem he')
      rw [find?_insert, if_neg hne]
      exact hnew e' (List.mem_cons_of_mem _ he')
    show ((s.insert e.1 e.2).insertAll es).entries = _
    rw [ih hnodup.2 hrest, entries_insert_of_not_mem (hnew e List.mem_cons_self), List.append_assoc]
    rfl

end ObjectModel.Slots

/-! ## Tables -/

namespace ObjectModel.PropertyTable

theorem entries_remove (t : PropertyTable) (k : Key) :
    (t.remove k).entries = t.entries.filter fun e => e.1 ≠ k := by
  rw [← Slots.entries_erase]
  unfold remove
  dsimp only
  split
  · next h =>
    -- nothing is found in the rest, so it lists nothing
    rw [Slots.entries_eq_nil_of_isEmpty h]
    rfl
  · rfl

@[simp]
theorem find?_remove (t : PropertyTable) (k k' : Key) :
    (t.remove k).find? k' = if k' = k then none else t.find? k' := by
  rw [← Slots.find?_erase]
  refine Slots.find?_congr ?_ k'
  rw [entries_remove, Slots.entries_erase]

end ObjectModel.PropertyTable
