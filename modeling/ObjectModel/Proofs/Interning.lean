import Mathlib.Data.Fintype.EquivFin
import ObjectModel.Proofs.Encoding
import ObjectModel.Text.Interned

/-!
# Interned texts are known by their places

Interning gives the place of an entry that holds the bytes (`entry_intern`) and keeps whatever other
entries hold (`Extends.intern`), so no construction changes a text that is there.  A text has one
form in bytes and bytes have one entry, so entries are the same exactly if the texts are, whatever
made them.

Places are those of the entries up to the last place; the entries from there on share it
(`TextRef.ofEntry_eq_iff`).  So far a place stands for one text, and a table with more entries than
places (`Fits`) reads some texts as another one.  `makeAll_interns` puts this together for every
sequence of constructions from the initial table.
-/

namespace ObjectModel

/-! ## Places and entries -/

namespace TextRef

@[ext]
theorem ext {r r' : TextRef} (h : r.index = r'.index) : r = r' := by
  cases r
  cases r'
  cases h
  rfl

theorem index_ofEntry_le (i : Nat) : (ofEntry i).index ≤ i := by
  show lastPlace (i + 1) ≤ i
  unfold lastPlace
  omega

theorem index_ofEntry {i : Nat} (hi : i < Number.maxWord) : (ofEntry i).index = i := by
  show lastPlace (i + 1) = i
  unfold lastPlace
  omega

theorem ofEntry_index (r : TextRef) : ofEntry r.index = r := ext (index_ofEntry r.index_lt)

theorem ofEntry_eq_final_iff {i : Nat} : ofEntry i = final ↔ Number.maxWord ≤ i + 1 := by
  have hindex : ofEntry i = final ↔ lastPlace (i + 1) = Number.maxWord - 1 :=
    ⟨fun h => congrArg index h, fun h => ext h⟩
  rw [hindex]
  unfold lastPlace
  omega

/-- **Entries with one place are the same, or both are known by the last place.** -/
theorem ofEntry_eq_iff {i j : Nat} :
    ofEntry i = ofEntry j ↔ i = j ∨ ofEntry i = final ∧ ofEntry j = final := by
  rw [ofEntry_eq_final_iff, ofEntry_eq_final_iff]
  have hindex : ofEntry i = ofEntry j ↔ lastPlace (i + 1) = lastPlace (j + 1) :=
    ⟨fun h => congrArg index h, fun h => ext h⟩
  rw [hindex]
  unfold lastPlace
  omega

end TextRef

theorem StoredText.eq_of (s : StoredText) : s = .of s.data := by
  obtain ⟨w, n, rfl⟩ := s
  rfl

/-- The units that a construction stands for, with the texts of a table. -/
def TextConstruction.meaning (t : TextTable) : TextConstruction → List UInt16
  | .copy s => (Text.ofString s).units
  | .string s => (Text.ofString s).units
  | .units us => us
  | .tail r start => (t.text r).units.drop start
  | .concat rs => rs.flatMap fun r => (t.text r).units

/-- Every construction encodes the units that it stands for. -/
theorem TextConstruction.units_encoded (t : TextTable) (c : TextConstruction) :
    (c.encoded t).units = c.meaning t := by
  cases c with
  | copy s =>
    show (Wtf8.empty.push (.ofString s)).units = _
    rw [Wtf8.units_push, Wtf8.units_ofString]
    rfl
  | string s => exact Wtf8.units_ofString s
  | units us => exact Wtf8.units_ofUnits us
  | tail r start => exact Wtf8.units_ofUnits _
  | concat rs =>
    show (Wtf8.concat (rs.map fun r => (t.stored r).data)).units = _
    rw [Wtf8.units_concat, List.flatMap_map]
    rfl

namespace TextTable

variable {t t' t'' : TextTable} {r r' : TextRef} {i j : Nat} {s s' : StoredText}

/-- A text is kept at the place. -/
def Holds (t : TextTable) (r : TextRef) : Prop := r.index < t.texts.size

instance : Decidable (t.Holds r) := inferInstanceAs (Decidable (_ < _))

/-- Every entry has a place of its own. -/
def Fits (t : TextTable) : Prop := t.texts.size ≤ Number.maxWord

/-- A text with these units is kept beyond the last place. -/
def Beyond (t : TextTable) (us : List UInt16) : Prop :=
  ∃ i s, Number.maxWord ≤ i ∧ t.texts[i]? = some s ∧ s.data.units = us

theorem getElem?_of_holds (h : t.Holds r) : t.texts[r.index]? = some (t.stored r) := by
  have hlt : r.index < t.texts.size := h
  unfold stored
  rw [Array.getD_eq_getD_getElem?, Array.getElem?_eq_getElem hlt]
  rfl

theorem stored_of_getElem? (h : t.texts[r.index]? = some s) : t.Holds r ∧ t.stored r = s := by
  constructor
  · obtain ⟨hlt, -⟩ := Array.getElem?_eq_some_iff.1 h
    exact hlt
  · unfold stored
    rw [Array.getD_eq_getD_getElem?, h]
    rfl

theorem text_congr (h : t'.stored r = t.stored r) : t'.text r = t.text r := by
  rw [text, h]
  rfl

/-- Texts with the same units have the same entry. -/
theorem entry_inj (hi : t.texts[i]? = some s) (hj : t.texts[j]? = some s')
    (h : s.data.units = s'.data.units) : i = j := by
  rw [s.eq_of] at hi
  rw [s'.eq_of, ← Wtf8.units_inj.1 h] at hj
  exact t.distinct s.data i j hi hj

/-- **Places are equal exactly if the texts read there are.** -/
theorem eq_iff_units (h : t.Holds r) (h' : t.Holds r') :
    r = r' ↔ (t.text r).units = (t.text r').units := by
  constructor
  · rintro rfl
    rfl
  · intro hunits
    exact TextRef.ext (entry_inj (getElem?_of_holds h) (getElem?_of_holds h') hunits)

theorem sameValue_text (h : t.Holds r) (h' : t.Holds r') :
    (Value.text (t.text r)).sameValue (.text (t.text r')) = true ↔ r = r' := by
  rw [eq_iff_units h h', Value.sameValue, beq_iff_eq, Value.text.injEq]
  constructor
  · intro htext
    rw [htext]
  · exact congrArg Text.mk

theorem fits_iff : t.Fits ↔ ∀ us, ¬ t.Beyond us := by
  constructor
  · rintro hfits us ⟨i, s, hi, hs, -⟩
    obtain ⟨hlt, -⟩ := Array.getElem?_eq_some_iff.1 hs
    exact absurd (Nat.lt_of_lt_of_le hlt hfits) (Nat.not_lt.2 hi)
  · intro hnone
    refine Nat.le_of_not_lt fun hlt => ?_
    exact hnone _ ⟨_, _, Nat.le_refl _, Array.getElem?_eq_getElem hlt, rfl⟩

/-- **The look-up and the texts are inverse exactly if every entry has a place of its own.** -/
theorem fits_iff_inverse :
    t.Fits ↔ ∀ (w : Wtf8) (r : TextRef),
      t.index[w]? = some r ↔ t.texts[r.index]? = some (.of w) := by
  constructor
  · intro hfits w r
    rw [t.indexed]
    constructor
    · rintro ⟨i, hi, rfl⟩
      obtain ⟨hlt, -⟩ := Array.getElem?_eq_some_iff.1 hi
      rw [TextRef.index_ofEntry (Nat.lt_of_lt_of_le hlt hfits)]
      exact hi
    · intro hr
      exact ⟨r.index, hr, r.ofEntry_index.symm⟩
  · intro hinverse
    refine Nat.le_of_not_lt fun hlt => ?_
    -- the first entry without a place of its own is looked up at the last place
    obtain ⟨s, hs⟩ : ∃ s, t.texts[Number.maxWord]? = some s :=
      ⟨_, Array.getElem?_eq_getElem hlt⟩
    rw [s.eq_of] at hs
    have hfinal : TextRef.ofEntry Number.maxWord = .final :=
      TextRef.ofEntry_eq_final_iff.2 (Nat.le_succ _)
    have hread := (hinverse s.data .final).1 ((t.indexed _ _).2 ⟨_, hs, hfinal.symm⟩)
    exact absurd (t.distinct _ _ _ hread hs) (by decide)

/-! ## Single constructions -/

/-- Another table keeps at least the texts of this one, at the same entries. -/
def Extends (t t' : TextTable) : Prop :=
  ∀ (i : Nat) (s : StoredText), t.texts[i]? = some s → t'.texts[i]? = some s

theorem Extends.refl (t : TextTable) : t.Extends t := fun _ _ h => h

theorem Extends.trans (h : t.Extends t') (h' : t'.Extends t'') : t.Extends t'' :=
  fun i s hs => h' i s (h i s hs)

theorem Extends.kept (h : t.Extends t') (hr : t.Holds r) :
    t'.Holds r ∧ t'.stored r = t.stored r :=
  stored_of_getElem? (h _ _ (getElem?_of_holds hr))

theorem Extends.intern (t : TextTable) (w : Wtf8) : t.Extends (t.intern w).2 := by
  unfold TextTable.intern
  split
  · exact .refl t
  · intro i s hi
    obtain ⟨hlt, -⟩ := Array.getElem?_eq_some_iff.1 hi
    show (t.texts.push (.of w))[i]? = some s
    rw [Array.getElem?_push, if_neg (Nat.ne_of_lt hlt)]
    exact hi

/-- **Interned bytes have an entry, and the place given is that of the entry.** -/
theorem entry_intern (t : TextTable) (w : Wtf8) :
    ∃ i, (t.intern w).2.texts[i]? = some (.of w) ∧ (t.intern w).1 = .ofEntry i := by
  unfold TextTable.intern
  split
  · next r h => exact (t.indexed w r).1 h
  · refine ⟨t.texts.size, ?_, rfl⟩
    show (t.texts.push (.of w))[t.texts.size]? = some (.of w)
    rw [Array.getElem?_push, if_pos rfl]

theorem Extends.make (t : TextTable) (c : TextConstruction) : t.Extends (t.make c).2 :=
  .intern t _

/-- A construction has an entry with the units that it stands for. -/
theorem entry_make (t : TextTable) (c : TextConstruction) :
    ∃ i s, (t.make c).2.texts[i]? = some s ∧ s.data.units = c.meaning t ∧
      (t.make c).1 = .ofEntry i := by
  obtain ⟨i, hi, hplace⟩ := t.entry_intern (c.encoded t)
  exact ⟨i, _, hi, c.units_encoded t, hplace⟩

theorem holds_make (t : TextTable) (c : TextConstruction) :
    (t.make c).2.Holds (t.make c).1 := by
  obtain ⟨i, s, hi, -, hplace⟩ := t.entry_make c
  obtain ⟨hlt, -⟩ := Array.getElem?_eq_some_iff.1 hi
  rw [hplace]
  exact Nat.lt_of_le_of_lt (TextRef.index_ofEntry_le i) hlt

/-- **A construction is read as what it stands for, unless that is kept beyond the last place.** -/
theorem units_make_iff (t : TextTable) (c : TextConstruction) :
    ((t.make c).2.text (t.make c).1).units = c.meaning t ↔
      ¬ (t.make c).2.Beyond (c.meaning t) := by
  obtain ⟨i, s, hi, hs, hplace⟩ := t.entry_make c
  constructor
  · rintro hread ⟨j, s', hj, hs', hunits⟩
    have hentry := getElem?_of_holds (t.holds_make c)
    have hindex : (t.make c).1.index = j := entry_inj hentry hs' (hread.trans hunits.symm)
    exact absurd (t.make c).1.index_lt (Nat.not_lt.2 (hindex ▸ hj))
  · intro hwithin
    have hlt : i < Number.maxWord := Nat.lt_of_not_le fun hle => hwithin ⟨i, s, hle, hi, hs⟩
    have hindex : (t.make c).1.index = i := by rw [hplace, TextRef.index_ofEntry hlt]
    rw [← hindex] at hi
    rw [text, (stored_of_getElem? hi).2]
    exact hs

/-- A text that is kept is not made again. -/
theorem make_of_entry {c : TextConstruction} (hi : t.texts[i]? = some s)
    (hs : s.data.units = c.meaning t) : (t.make c).1 = .ofEntry i := by
  obtain ⟨j, s', hj, hs', hplace⟩ := t.entry_make c
  rw [hplace, entry_inj hj (Extends.make t c i s hi) (hs'.trans hs.symm)]

/-- A text that is not kept takes one more entry. -/
theorem size_make {c : TextConstruction}
    (hnew : ∀ (i : Nat) (s : StoredText), t.texts[i]? = some s → s.data.units ≠ c.meaning t) :
    (t.make c).2.texts.size = t.texts.size + 1 := by
  unfold make intern
  split
  · next r h =>
    obtain ⟨i, hi, -⟩ := (t.indexed _ r).1 h
    exact absurd (c.units_encoded t) (hnew i _ hi)
  · exact Array.size_push _

/-- **A text that is new to a table with no place left is known by the last place**, and another one
is read there. -/
theorem make_late {c : TextConstruction} (hfull : Number.maxWord ≤ t.texts.size)
    (hnew : ∀ (i : Nat) (s : StoredText), t.texts[i]? = some s → s.data.units ≠ c.meaning t) :
    (t.make c).1 = .final ∧ ((t.make c).2.text (t.make c).1).units ≠ c.meaning t := by
  obtain ⟨i, s, hi, hs, hplace⟩ := t.entry_make c
  have hle : t.texts.size ≤ i := by
    refine Nat.le_of_not_lt fun hlt => ?_
    have hkept := Extends.make t c i _ (Array.getElem?_eq_getElem hlt)
    cases hi.symm.trans hkept
    exact hnew i _ (Array.getElem?_eq_getElem hlt) hs
  have hbeyond : Number.maxWord ≤ i := Nat.le_trans hfull hle
  constructor
  · rw [hplace, TextRef.ofEntry_eq_final_iff]
    exact Nat.le_succ_of_le hbeyond
  · intro hread
    exact (t.units_make_iff c).1 hread ⟨i, s, hbeyond, hi, hs⟩

/-! ## Any number of constructions -/

theorem Extends.makeAll (t : TextTable) (cs : List TextConstruction) :
    t.Extends (t.makeAll cs) := by
  induction cs generalizing t with
  | nil => exact .refl t
  | cons c cs ih => exact (Extends.make t c).trans (ih _)

/-- **Two constructions give one place exactly if they stand for the same units or both give the
last place**, whatever is made between them. -/
theorem make_eq_iff (t : TextTable) (c c' : TextConstruction) (cs : List TextConstruction) :
    (t.make c).1 = (((t.make c).2.makeAll cs).make c').1 ↔
      c.meaning t = c'.meaning ((t.make c).2.makeAll cs) ∨
        (t.make c).1 = .final ∧ (((t.make c).2.makeAll cs).make c').1 = .final := by
  obtain ⟨i, s, hi, hs, hplace⟩ := t.entry_make c
  obtain ⟨j, s', hj, hs', hplace'⟩ := ((t.make c).2.makeAll cs).entry_make c'
  -- the first entry is still there in the last table
  have hkept := (Extends.makeAll (t.make c).2 cs).trans (.make _ c') i s hi
  have hsame : i = j ↔ c.meaning t = c'.meaning ((t.make c).2.makeAll cs) := by
    rw [← hs, ← hs']
    constructor
    · rintro rfl
      cases hkept.symm.trans hj
      rfl
    · exact entry_inj hkept hj
  rw [hplace, hplace', TextRef.ofEntry_eq_iff, hsame]

theorem exists_new (t : TextTable) :
    ∃ us, ∀ (i : Nat) (s : StoredText), t.texts[i]? = some s → s.data.units ≠ us := by
  obtain ⟨us, hus⟩ :=
    Infinite.exists_notMem_finset (t.texts.toList.map fun s => s.data.units).toFinset
  refine ⟨us, fun i s hs heq => hus ?_⟩
  rw [List.mem_toFinset, ← heq]
  exact List.mem_map_of_mem (Array.mem_toList_iff.2 (Array.mem_of_getElem? hs))

/-- Constructions can go on to any number of entries. -/
theorem exists_makeAll_size (t : TextTable) (n : Nat) :
    ∃ cs, (t.makeAll cs).texts.size = t.texts.size + n := by
  induction n with
  | zero => exact ⟨[], rfl⟩
  | succ n ih =>
    obtain ⟨cs, hcs⟩ := ih
    obtain ⟨us, hus⟩ := (t.makeAll cs).exists_new
    refine ⟨cs ++ [.units us], ?_⟩
    have hstep : t.makeAll (cs ++ [.units us]) = ((t.makeAll cs).make (.units us)).2 :=
      List.foldl_concat ..
    rw [hstep, size_make hus, hcs, Nat.add_assoc]

/-- A table with more entries than places gives the last place to two texts. -/
theorem exists_shared (h : ¬ t.Fits) :
    ∃ us us', us ≠ us' ∧ (t.make (.units us)).1 = .final ∧
      (t.make (.units us')).1 = .final := by
  have hlt : Number.maxWord < t.texts.size := Nat.lt_of_not_le h
  obtain ⟨s, hs⟩ : ∃ s, t.texts[Number.maxWord - 1]? = some s :=
    ⟨_, Array.getElem?_eq_getElem (Nat.lt_of_le_of_lt (Nat.sub_le _ _) hlt)⟩
  obtain ⟨s', hs'⟩ : ∃ s', t.texts[Number.maxWord]? = some s' :=
    ⟨_, Array.getElem?_eq_getElem hlt⟩
  refine ⟨s.data.units, s'.data.units, fun hsame => ?_, ?_, ?_⟩
  · exact absurd (entry_inj hs hs' hsame) (by decide)
  · rw [make_of_entry hs rfl]
    decide
  · rw [make_of_entry hs' rfl]
    decide

/-- The empty text stands first from the beginning. -/
theorem holds_empty (cs : List TextConstruction) :
    (initial.makeAll cs).Holds .empty ∧ ((initial.makeAll cs).text .empty).units = [] := by
  have hfirst : initial.Holds .empty ∧ (initial.text .empty).units = [] := by decide
  obtain ⟨hholds, hstored⟩ := (Extends.makeAll initial cs).kept hfirst.1
  exact ⟨hholds, (congrArg Text.units (text_congr hstored)).trans hfirst.2⟩

/-- What holds of a table of interned texts. -/
structure Interns (t : TextTable) : Prop where
  /-- The look-up and the table are inverse exactly as long as there are places for all texts. -/
  inverse : t.texts.size ≤ 4294967295 ↔ ∀ (w : Wtf8) (r : TextRef),
    t.index[w]? = some r ↔ t.texts[r.index]? = some (.of w)
  /-- No further constructions change what stands at a place. -/
  kept : ∀ cs r, t.Holds r → (t.makeAll cs).Holds r ∧ (t.makeAll cs).stored r = t.stored r
  /-- Places are equal exactly if the units read there are. -/
  same : ∀ r r', t.Holds r → t.Holds r' → (r = r' ↔ (t.text r).units = (t.text r').units)
  /-- Values compare texts as their places do. -/
  sameValue : ∀ r r', t.Holds r → t.Holds r' →
    ((Value.text (t.text r)).sameValue (.text (t.text r')) = true ↔ r = r')
  /-- Every construction gives a place, and the units read there are those that it stands for unless
  these are kept beyond the last place. -/
  made : ∀ c, (t.make c).2.Holds (t.make c).1 ∧
    (((t.make c).2.text (t.make c).1).units = c.meaning t ↔
      ¬ (t.make c).2.Beyond (c.meaning t))
  /-- Two constructions, with any others between them, give one place exactly if they stand for the
  same units or both give the last place. -/
  routes : ∀ c cs c', (t.make c).1 = (((t.make c).2.makeAll cs).make c').1 ↔
    c.meaning t = c'.meaning ((t.make c).2.makeAll cs) ∨
      (t.make c).1 = .final ∧ (((t.make c).2.makeAll cs).make c').1 = .final
  /-- The first place is the only empty one. -/
  isEmpty : ∀ r, t.Holds r → (r.isEmpty = true ↔ (t.text r).units = [])
  length : ∀ r, t.length r = (t.text r).units.length
  /-- Nothing is kept beyond the last place exactly as long as there are places for all texts. -/
  within : t.texts.size ≤ 4294967295 ↔ ∀ us, ¬ t.Beyond us
  /-- With no place left, a text that is not kept is given the last place and read as another. -/
  late : 4294967295 ≤ t.texts.size → ∀ c,
    (∀ (i : Nat) (s : StoredText), t.texts[i]? = some s → s.data.units ≠ c.meaning t) →
      (t.make c).1 = .final ∧ ((t.make c).2.text (t.make c).1).units ≠ c.meaning t
  /-- From then on two texts with different units have one place. -/
  shared : 4294967295 < t.texts.size → ∃ us us', us ≠ us' ∧
    (t.make (.units us)).1 = (t.make (.units us')).1
  /-- Further constructions lead to tables of every size. -/
  grows : ∀ n, ∃ cs, (t.makeAll cs).texts.size = t.texts.size + n

/-- **Texts are interned as long as there are places for them**, whatever constructions come one
after the other.  The table and the look-up are inverse, constructions are read as what they stand
for and places tell them apart up to `2 ^ 32 - 1` texts.  Every later text is known by the place of
an earlier one and is read as that one. -/
theorem makeAll_interns (cs : List TextConstruction) : (initial.makeAll cs).Interns := by
  obtain ⟨hempty, hnone⟩ := holds_empty cs
  generalize initial.makeAll cs = t at hempty hnone
  refine
    { inverse := fits_iff_inverse
      kept := fun cs' r hr => (Extends.makeAll t cs').kept hr
      same := fun r r' => eq_iff_units
      sameValue := fun r r' => sameValue_text
      made := fun c => ⟨t.holds_make c, t.units_make_iff c⟩
      routes := fun c cs' c' => t.make_eq_iff c c' cs'
      isEmpty := fun r hr => ?_
      length := fun r => (t.stored r).length_eq
      within := fits_iff
      late := fun hfull c hnew => make_late hfull hnew
      shared := fun hlt => ?_
      grows := t.exists_makeAll_size }
  · rw [TextRef.isEmpty, beq_iff_eq, eq_iff_units hr hempty, hnone]
  · obtain ⟨us, us', hne, hfinal, hfinal'⟩ := exists_shared (Nat.not_le.2 hlt)
    exact ⟨us, us', hne, hfinal.trans hfinal'.symm⟩

/-- A character from its two halves, from a string and from a copy of the string, and its first
half again as a tail that no pair is left in. -/
example :
    let t := initial.makeAll [.units [0xD83D], .units [0xDE00]]
    let halves := TextConstruction.concat [.ofEntry 2, .ofEntry 3]
    (t.make halves).1 = .ofEntry 4 ∧
      ((t.make halves).2.stored (.ofEntry 4)).data.bytes = #[0xF0, 0x9F, 0x98, 0x80] ∧
      ((t.make halves).2.make (.string "😀")).1 = .ofEntry 4 ∧
      ((t.make halves).2.make (.copy "😀")).1 = .ofEntry 4 ∧
      ((t.make halves).2.make (.tail (.ofEntry 4) 1)).1 = .ofEntry 3 := by decide +kernel

end TextTable

end ObjectModel
