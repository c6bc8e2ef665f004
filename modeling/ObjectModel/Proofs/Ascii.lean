import ObjectModel.Key

/-!
# Source text is ASCII

Quoted texts, names in object literals and the texts of numbers are made of units below U+0080,
and so is what is put together from them.  Such a text has no surrogates, so `Text.lossy` leaves
it alone.
-/

namespace ObjectModel

namespace Text

/-- Every unit is an ASCII character. -/
def Ascii (t : Text) : Prop := ∀ u ∈ t.units, u.toNat < 0x80

theorem ascii_empty : empty.Ascii := nofun

theorem Ascii.append {s t : Text} (hs : s.Ascii) (ht : t.Ascii) : (s ++ t).Ascii := by
  intro u hu
  rcases List.mem_append.1 hu with hu | hu
  · exact hs u hu
  · exact ht u hu

theorem ascii_join {separator : Text} {ts : List Text} (hs : separator.Ascii)
    (h : ∀ t ∈ ts, t.Ascii) : (join separator ts).Ascii := by
  induction ts with
  | nil => exact ascii_empty
  | cons t rest ih =>
    have ht := h t (by simp)
    have hrest := ih fun s hs => h s (by simp [hs])
    cases rest with
    | nil => exact ht
    | cons s rest => exact ht.append (hs.append hrest)

theorem ascii_ofChars {cs : List Char} (h : ∀ c ∈ cs, c.toNat < 0x80) : (ofChars cs).Ascii := by
  intro u hu
  obtain ⟨c, hc, hu⟩ := List.mem_flatMap.1 hu
  have hlt := h c hc
  have hsmall : c.toNat < 0x10000 := by omega
  rw [unitsOfChar, if_pos hsmall, List.mem_singleton] at hu
  subst hu
  rw [UInt16.toNat_ofNat_of_lt' (by omega)]
  exact hlt

theorem ascii_ofString {s : String} (h : s.toList.all (fun c => c.toNat < 0x80) = true) :
    (ofString s).Ascii := by
  refine ascii_ofChars fun c hc => ?_
  simpa using List.all_eq_true.1 h c hc

/-! ## Lossy texts -/

theorem wellFormedUnits_of_ascii {us : List UInt16} (h : ∀ u ∈ us, u.toNat < 0x80) :
    wellFormedUnits us = true := by
  have hplain {u : UInt16} (hu : u.toNat < 0x80) :
      isHighSurrogate u = false ∧ isLowSurrogate u = false := by
    simp only [isHighSurrogate, isLowSurrogate, UInt16.le_iff_toNat_le, Bool.and_eq_false_iff,
      decide_eq_false_iff_not, UInt16.reduceToNat]
    omega
  induction us with
  | nil => rfl
  | cons u rest ih =>
    obtain ⟨hhigh, hlow⟩ := hplain (h u (by simp))
    have hrest := ih fun v hv => h v (by simp [hv])
    cases rest with
    | nil => simp [wellFormedUnits, hhigh, hlow]
    | cons v rest => simp [wellFormedUnits, hhigh, hlow, hrest]

theorem Ascii.lossy_eq {t : Text} (h : t.Ascii) : t.lossy = t := by
  simp [lossy, wellFormed, wellFormedUnits_of_ascii h]

/-! ## Quoted texts and names -/

theorem hexDigit_lt {n : Nat} (h : n < 16) : (hexDigit n).toNat < 0x80 := by
  have hlt : (if n < 10 then 0x30 + n else 0x41 + (n - 10)) < 0x80 := by split <;> omega
  unfold hexDigit
  rw [UInt16.toNat_ofNat_of_lt' (Nat.lt_trans hlt (by decide))]
  exact hlt

/-- What holds of all sixteen digits holds of the digits of a number. -/
theorem forall_mem_hexDigits {P : UInt16 → Prop} (h : ∀ n < 16, P (hexDigit n)) (width n : Nat) :
    ∀ u ∈ hexDigits width n, P u := by
  induction width generalizing n with
  | zero => exact nofun
  | succ width ih =>
    intro u hu
    rcases List.mem_append.1 hu with hu | hu
    · exact ih _ u hu
    · rw [List.mem_singleton.1 hu]
      exact h _ (Nat.mod_lt _ (by decide))

/-- The units that are written as a backslash and a letter, with their letters. -/
def letterEscapes : List (UInt16 × UInt16) :=
  [(0x08, 0x62), (0x09, 0x74), (0x0A, 0x6E), (0x0B, 0x76), (0x0D, 0x72)]

/-- How a unit is written inside a text quoted with the mark. -/
inductive Escape (mark u : UInt16) : List UInt16 → Prop where
  | letter {v : UInt16} (h : (u, v) ∈ letterEscapes) : Escape mark u [backslash, v]
  | itself (h : u = mark ∨ u = backslash) : Escape mark u [backslash, u]
  | plain (hmark : u ≠ mark) (hbackslash : u ≠ backslash) (h : 0x20 ≤ u ∧ u ≤ 0x7E) :
      Escape mark u [u]
  | short (h : u.toNat < 0x100) : Escape mark u (backslash :: 0x78 :: hexDigits 2 u.toNat)
  | long : Escape mark u (backslash :: 0x75 :: hexDigits 4 u.toNat)

theorem escape_escapeUnit (mark u : UInt16) : Escape mark u (escapeUnit mark u) := by
  unfold escapeUnit
  repeat' split
  · next h => exact .letter (by rw [eq_of_beq h]; decide)
  · next h => exact .letter (by rw [eq_of_beq h]; decide)
  · next h => exact .letter (by rw [eq_of_beq h]; decide)
  · next h => exact .letter (by rw [eq_of_beq h]; decide)
  · next h => exact .letter (by rw [eq_of_beq h]; decide)
  · next h => exact .itself (by simpa using h)
  · next hother h =>
    have hne : ¬ u = mark ∧ ¬ u = backslash := by simpa using hother
    exact .plain hne.1 hne.2 (by simpa using h)
  · next h => exact .short (Nat.lt_succ_of_le (UInt16.le_iff_toNat_le.1 h))
  · exact .long

theorem escapeUnit_lt {mark : UInt16} (hmark : mark.toNat < 0x80) (u : UInt16) :
    ∀ v ∈ escapeUnit mark u, v.toNat < 0x80 := by
  have hescape {v : UInt16} {vs : List UInt16} (hv : v.toNat < 0x80)
      (hvs : ∀ w ∈ vs, w.toNat < 0x80) : ∀ w ∈ backslash :: v :: vs, w.toNat < 0x80 :=
    List.forall_mem_cons.2 ⟨by decide, List.forall_mem_cons.2 ⟨hv, hvs⟩⟩
  have hdigits (width n : Nat) : ∀ w ∈ hexDigits width n, w.toNat < 0x80 :=
    forall_mem_hexDigits (fun _ => hexDigit_lt) width n
  have hletters : letterEscapes.all (fun e => e.2.toNat < 0x80) = true := by decide
  have h := escape_escapeUnit mark u
  generalize escapeUnit mark u = vs at h ⊢
  cases h with
  | letter h => exact hescape (by simpa using List.all_eq_true.1 hletters _ h) nofun
  | itself h =>
    refine hescape ?_ nofun
    rcases h with rfl | rfl
    · exact hmark
    · decide
  | plain _ _ h =>
    have hle := UInt16.le_iff_toNat_le.1 h.2
    simp only [UInt16.reduceToNat] at hle
    simp only [List.mem_singleton, forall_eq]
    omega
  | short _ => exact hescape (by decide) (hdigits 2 _)
  | long => exact hescape (by decide) (hdigits 4 _)

theorem ascii_quoteWith {mark : UInt16} (hmark : mark.toNat < 0x80) (t : Text) :
    (quoteWith mark t).Ascii := by
  intro u hu
  rcases List.mem_append.1 hu with hu | hu
  · rcases List.mem_cons.1 hu with rfl | hu
    · exact hmark
    · obtain ⟨v, -, hv⟩ := List.mem_flatMap.1 hu
      exact escapeUnit_lt hmark v u hv
  · rw [List.mem_singleton.1 hu]
    exact hmark

theorem lt_of_isDigit {u : UInt16} (h : isDigit u = true) : u.toNat < 0x80 := by
  simp only [isDigit, UInt16.le_iff_toNat_le, Bool.and_eq_true, decide_eq_true_eq,
    UInt16.reduceToNat] at h
  omega

theorem lt_of_isIdentifierStart {u : UInt16} (h : isIdentifierStart u = true) :
    u.toNat < 0x80 := by
  simp only [isIdentifierStart, UInt16.le_iff_toNat_le, Bool.and_eq_true, Bool.or_eq_true,
    decide_eq_true_eq, beq_iff_eq, UInt16.reduceToNat] at h
  rcases h with ((rfl | rfl) | h) | h
  · decide
  · decide
  · omega
  · omega

theorem ascii_of_isIdentifier {t : Text} (h : t.isIdentifier = true) : t.Ascii := by
  intro u hu
  unfold isIdentifier at h
  cases hunits : t.units with
  | nil => simp [hunits] at hu
  | cons v rest =>
    simp only [hunits, Bool.and_eq_true, List.all_eq_true, Bool.or_eq_true] at h
    rw [hunits] at hu
    rcases List.mem_cons.1 hu with rfl | hu
    · exact lt_of_isIdentifierStart h.1
    · rcases h.2 u hu with hu | hu
      · exact lt_of_isIdentifierStart hu
      · exact lt_of_isDigit hu

theorem ascii_of_isBareIndex {t : Text} (h : t.isBareIndex = true) : t.Ascii := by
  simp only [isBareIndex, Bool.and_eq_true, List.all_eq_true] at h
  exact fun u hu => lt_of_isDigit (h.1.2 u hu)

/-! ## Numbers -/

theorem lt_of_isDigit_char {c : Char} (h : c.isDigit = true) : c.toNat < 0x80 := by
  have hle : c.val ≤ 57 := by simp_all [Char.isDigit]
  have := UInt32.le_iff_toNat_le.1 hle
  simp only [UInt32.reduceToNat] at this
  exact Nat.lt_of_le_of_lt this (by decide)

theorem isDigit_of_mem_toDigits {n : Nat} {c : Char} (h : c ∈ Nat.toDigits 10 n) :
    c.isDigit = true :=
  Nat.isDigit_of_mem_toDigits (by decide) (by decide) h

theorem ascii_ofNat (n : Nat) : (ofNat n).Ascii :=
  ascii_ofChars fun _ hc => lt_of_isDigit_char (isDigit_of_mem_toDigits hc)

end Text

theorem Key.ascii_literalName (k : Key) : k.literalName.Ascii := by
  cases k with
  | index i =>
    simp only [literalName]
    split
    · exact Text.ascii_ofNat i
    · exact Text.ascii_quoteWith (by decide) _
  | name t =>
    simp only [literalName]
    split
    · next h =>
      rcases Bool.or_eq_true_iff.1 h with h | h
      · exact Text.ascii_of_isIdentifier h
      · exact Text.ascii_of_isBareIndex h
    · exact Text.ascii_quoteWith (by decide) _
  | symbol s => exact Text.ascii_empty

namespace Decimal

theorem isDigit_of_mem_zeros {n : Nat} {c : Char} (h : c ∈ zeros n) : c.isDigit = true := by
  rw [List.eq_of_mem_replicate h]
  decide

/-- The characters of decimals: digits, the point, the mark of a power and the signs. -/
def IsDecimalChar (c : Char) : Prop := c.isDigit = true ∨ c ∈ ['.', 'e', '+', '-']

theorem IsDecimalChar.lt {c : Char} (h : IsDecimalChar c) : c.toNat < 0x80 := by
  rcases h with h | h
  · exact Text.lt_of_isDigit_char h
  · simp only [List.mem_cons, List.not_mem_nil, or_false] at h
    rcases h with rfl | rfl | rfl | rfl <;> decide

theorem isDecimalChar_of_mem_signedDigits {i : Int} {c : Char} (h : c ∈ signedDigits i) :
    IsDecimalChar c := by
  rcases List.mem_cons.1 h with rfl | h
  · right
    split <;> decide
  · exact .inl (Text.isDigit_of_mem_toDigits h)

theorem isDecimalChar_of_mem_toChars {d : Decimal} {c : Char} (h : c ∈ d.toChars) :
    IsDecimalChar c := by
  have hdigits {n : Nat} (h : c ∈ Nat.toDigits 10 n) : IsDecimalChar c :=
    .inl (Text.isDigit_of_mem_toDigits h)
  have hzeros {n : Nat} (h : c ∈ zeros n) : IsDecimalChar c := .inl (isDigit_of_mem_zeros h)
  unfold toChars at h
  dsimp only at h
  split at h
  · rcases List.mem_append.1 h with h | h
    · exact hdigits h
    · exact hzeros h
  split at h
  · rcases List.mem_append.1 h with h | h
    · exact hdigits (List.mem_of_mem_take h)
    · rcases List.mem_cons.1 h with rfl | h
      · exact .inr (by decide)
      · exact hdigits (List.mem_of_mem_drop h)
  split at h
  · simp only [List.cons_append, List.mem_cons, List.mem_append] at h
    rcases h with rfl | rfl | h | h
    · exact .inl (by decide)
    · exact .inr (by decide)
    · exact hzeros h
    · exact hdigits h
  · simp only [List.mem_append, List.mem_cons] at h
    rcases h with (h | h) | rfl | h
    · exact hdigits (List.mem_of_mem_take h)
    · split at h
      · simp at h
      · rcases List.mem_cons.1 h with rfl | h
        · exact .inr (by decide)
        · exact hdigits (List.mem_of_mem_drop h)
    · exact .inr (by decide)
    · exact isDecimalChar_of_mem_signedDigits h

end Decimal

/-- The text of a finite number is made of the characters of decimals. -/
theorem Number.exists_chars (negative : Bool) (code : Fin infiniteCode) :
    ∃ cs : List Char, (Number.finite negative code).toText = Text.ofChars cs ∧
      ∀ c ∈ cs, Decimal.IsDecimalChar c := by
  simp only [toText]
  split
  · exact ⟨['0'], rfl, by simp [Decimal.IsDecimalChar]⟩
  · refine ⟨_, rfl, fun c hc => ?_⟩
    rcases List.mem_append.1 hc with hc | hc
    · cases negative with
      | false => simp at hc
      | true =>
        rw [List.mem_singleton.1 hc]
        exact .inr (by decide)
    · exact Decimal.isDecimalChar_of_mem_toChars hc

theorem Number.ascii_toText (n : Number) : n.toText.Ascii := by
  cases n with
  | nan => exact Text.ascii_ofString (by decide)
  | infinity negative => cases negative <;> exact Text.ascii_ofString (by decide)
  | finite negative code =>
    obtain ⟨cs, htext, hcs⟩ := exists_chars negative code
    rw [htext]
    exact Text.ascii_ofChars fun c hc => (hcs c hc).lt

end ObjectModel
