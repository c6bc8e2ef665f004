import Mathlib.Data.List.TakeWhile
import ObjectModel.Proofs.Description

/-!
# Quoted texts and names are read back

The escape of a unit is read back as the unit, whatever follows it: the short escapes differ in
their second unit and the long ones have a fixed number of digits.  The mark itself occurs only at
the ends of a quoted text, so where the text ends can be seen, and a quoted text determines what it
quotes.

The name of a property in an object literal is bare or quoted, which its first unit tells, and
ends before the first colon.  So it determines the key.
-/

namespace ObjectModel

namespace Text

/-! ## Texts cut in two -/

/-- Units are read up to the first one that does not belong to them. -/
theorem span_append {p : UInt16 → Bool} {us rest : List UInt16} (hus : ∀ u ∈ us, p u = true)
    (hrest : ∀ u ∈ rest.head?, p u = false) :
    (us ++ rest).takeWhile p = us ∧ (us ++ rest).dropWhile p = rest := by
  rw [List.takeWhile_append_of_pos hus, List.dropWhile_append_of_pos hus]
  cases rest with
  | nil => simp
  | cons u rest => simp [hrest u rfl]

theorem append_inj_of_stop {p : UInt16 → Bool} {us us' rest rest' : List UInt16}
    (hus : ∀ u ∈ us, p u = true) (hus' : ∀ u ∈ us', p u = true)
    (hrest : ∀ u ∈ rest.head?, p u = false) (hrest' : ∀ u ∈ rest'.head?, p u = false)
    (h : us ++ rest = us' ++ rest') : us = us' ∧ rest = rest' := by
  obtain ⟨htake, hdrop⟩ := span_append hus hrest
  obtain ⟨htake', hdrop'⟩ := span_append hus' hrest'
  rw [h] at htake hdrop
  exact ⟨htake.symm.trans htake', hdrop.symm.trans hdrop'⟩

/-! ## Hexadecimal digits -/

/-- The value of a hexadecimal digit in upper case. -/
def hexValue (u : UInt16) : Nat := if isDigit u then u.toNat - 0x30 else u.toNat - 0x41 + 10

/-- The number that hexadecimal digits spell. -/
def hexNumber (us : List UInt16) : Nat := us.foldl (fun n u => 16 * n + hexValue u) 0

theorem hexValue_hexDigit {n : Nat} (hn : n < 16) : hexValue (hexDigit n) = n := by
  revert n
  decide

theorem length_hexDigits (width n : Nat) : (hexDigits width n).length = width := by
  induction width generalizing n with
  | zero => rfl
  | succ width ih => rw [hexDigits, List.length_append, ih, List.length_singleton]

theorem hexNumber_hexDigits (width n : Nat) : hexNumber (hexDigits width n) = n % 16 ^ width := by
  induction width generalizing n with
  | zero => simp [hexDigits, hexNumber, Nat.mod_one]
  | succ width ih =>
    have hrest := ih (n / 16)
    unfold hexNumber at hrest
    rw [hexDigits, hexNumber, List.foldl_append, List.foldl_cons, List.foldl_nil, hrest,
      hexValue_hexDigit (Nat.mod_lt n (by decide)), Nat.pow_succ, Nat.mul_comm (16 ^ width) 16,
      Nat.mod_mul]
    omega

/-! ## Escapes -/

/-- The unit with `width` hexadecimal digits at the start of a text, and the rest of the text. -/
def readHex (width : Nat) (us : List UInt16) : UInt16 × List UInt16 :=
  (UInt16.ofNat (hexNumber (us.take width)), us.drop width)

/-- The unit that an escape stands for, and the rest of the text. -/
def readEscape : List UInt16 → Option (UInt16 × List UInt16)
  | [] => none
  | u :: rest =>
    if u == 0x62 then some (0x08, rest)
    else if u == 0x74 then some (0x09, rest)
    else if u == 0x6E then some (0x0A, rest)
    else if u == 0x76 then some (0x0B, rest)
    else if u == 0x72 then some (0x0D, rest)
    else if u == 0x78 then some (readHex 2 rest)
    else if u == 0x75 then some (readHex 4 rest)
    else some (u, rest)

/-- The first unit inside a quoted text, and the rest of the text. -/
def readUnit : List UInt16 → Option (UInt16 × List UInt16)
  | [] => none
  | u :: rest => if u == backslash then readEscape rest else some (u, rest)

theorem readHex_append {width : Nat} {u : UInt16} (hu : u.toNat < 16 ^ width)
    (rest : List UInt16) : readHex width (hexDigits width u.toNat ++ rest) = (u, rest) := by
  have hlength := length_hexDigits width u.toNat
  rw [readHex, List.take_left' hlength, List.drop_left' hlength, hexNumber_hexDigits,
    Nat.mod_eq_of_lt hu, UInt16.ofNat_toNat]

/-- The marks of quoted texts. -/
def IsMark (mark : UInt16) : Prop := mark = doubleQuote ∨ mark = singleQuote

/-- **An escape is read back as its unit.** -/
theorem readUnit_escapeUnit {mark : UInt16} (hmark : IsMark mark) (u : UInt16)
    (rest : List UInt16) : readUnit (escapeUnit mark u ++ rest) = some (u, rest) := by
  have h := escape_escapeUnit mark u
  generalize escapeUnit mark u = vs at h ⊢
  cases h with
  | letter h =>
    simp only [letterEscapes, List.mem_cons, Prod.mk.injEq, List.not_mem_nil, or_false] at h
    rcases h with ⟨rfl, rfl⟩ | ⟨rfl, rfl⟩ | ⟨rfl, rfl⟩ | ⟨rfl, rfl⟩ | ⟨rfl, rfl⟩ <;> rfl
  | itself h =>
    rcases h with rfl | rfl
    · rcases hmark with rfl | rfl <;> rfl
    · rfl
  | plain _ hne _ => exact if_neg fun hu => hne (eq_of_beq hu)
  | short hlt => exact congrArg some (readHex_append hlt rest)
  | long => exact congrArg some (readHex_append u.toNat_lt rest)

/-- The mark is not the first unit of an escape. -/
theorem exists_escapeUnit_eq {mark : UInt16} (hmark : IsMark mark) (u : UInt16) :
    ∃ v vs, escapeUnit mark u = v :: vs ∧ v ≠ mark := by
  have hbackslash : backslash ≠ mark := by rcases hmark with rfl | rfl <;> decide
  have h := escape_escapeUnit mark u
  generalize escapeUnit mark u = vs at h ⊢
  cases h with
  | plain hne _ _ => exact ⟨u, [], rfl, hne⟩
  | _ => exact ⟨backslash, _, rfl, hbackslash⟩

/-- The units between the marks, and what follows the second one, can be seen. -/
theorem escapeUnits_append_inj {mark : UInt16} (hmark : IsMark mark)
    {us us' rest rest' : List UInt16}
    (h : us.flatMap (escapeUnit mark) ++ mark :: rest =
      us'.flatMap (escapeUnit mark) ++ mark :: rest') : us = us' ∧ rest = rest' := by
  induction us generalizing us' with
  | nil =>
    cases us' with
    | nil => exact ⟨rfl, (List.cons.inj h).2⟩
    | cons u' us' =>
      obtain ⟨v, vs, hv, hne⟩ := exists_escapeUnit_eq hmark u'
      rw [List.flatMap_cons, hv] at h
      exact absurd (List.cons.inj h).1.symm hne
  | cons u us ih =>
    cases us' with
    | nil =>
      obtain ⟨v, vs, hv, hne⟩ := exists_escapeUnit_eq hmark u
      rw [List.flatMap_cons, hv] at h
      exact absurd (List.cons.inj h).1 hne
    | cons u' us' =>
      rw [List.flatMap_cons, List.flatMap_cons, List.append_assoc, List.append_assoc] at h
      have hread := congrArg readUnit h
      rw [readUnit_escapeUnit hmark, readUnit_escapeUnit hmark] at hread
      obtain ⟨rfl, htail⟩ := Prod.mk.inj (Option.some.inj hread)
      obtain ⟨rfl, hrest⟩ := ih htail
      exact ⟨rfl, hrest⟩

/-- **A quoted text determines what it quotes**, and where it ends. -/
theorem quoteWith_append_inj {mark : UInt16} (hmark : IsMark mark) {s t : Text}
    {rest rest' : List UInt16}
    (h : (quoteWith mark s).units ++ rest = (quoteWith mark t).units ++ rest') :
    s = t ∧ rest = rest' := by
  simp only [quoteWith, List.cons_append, List.append_assoc] at h
  obtain ⟨hunits, hrest⟩ := escapeUnits_append_inj hmark (List.cons.inj h).2
  exact ⟨congrArg Text.mk hunits, hrest⟩

end Text

/-! ## Names in object literals -/

namespace Key

/-- The text of a key that is no symbol. -/
def spelling : Key → Text
  | .index i => Text.ofNat i
  | .name t => t
  | .symbol _ => Text.empty

/-- A canonical key is the key of its text. -/
theorem ofText_spelling {k : Key} (hk : k.Canonical) (hsymbol : k.isSymbol = false) :
    ofText k.spelling = k := by
  cases k with
  | index i => rw [spelling, ofText, Text.arrayIndex?_ofNat hk]
  | name t =>
    have ht : t.arrayIndex? = none := hk
    rw [spelling, ofText, ht]
  | symbol s => cases hsymbol

/-- The unit may stand in a bare name. -/
def isNameUnit (u : UInt16) : Bool := Text.isIdentifierStart u || Text.isDigit u

theorem isNameUnit_of_isIdentifier {t : Text} (h : t.isIdentifier = true) :
    t.units ≠ [] ∧ ∀ u ∈ t.units, isNameUnit u = true := by
  unfold Text.isIdentifier at h
  cases hunits : t.units with
  | nil => simp [hunits] at h
  | cons v rest =>
    simp only [hunits, Bool.and_eq_true, List.all_eq_true] at h
    refine ⟨by simp, fun u hu => ?_⟩
    rcases List.mem_cons.1 hu with rfl | hu
    · simp [isNameUnit, h.1]
    · exact h.2 u hu

theorem isNameUnit_of_isBareIndex {t : Text} (h : t.isBareIndex = true) :
    t.units ≠ [] ∧ ∀ u ∈ t.units, isNameUnit u = true := by
  simp only [Text.isBareIndex, Bool.and_eq_true, List.all_eq_true] at h
  refine ⟨by simpa [Text.isEmpty] using h.1.1.1.1, fun u hu => ?_⟩
  simp [isNameUnit, h.1.2 u hu]

/-- A name is bare, or it is the text of the key in single quotes. -/
theorem literalName_cases {k : Key} (hsymbol : k.isSymbol = false) :
    (k.literalName = k.spelling ∧ k.spelling.units ≠ [] ∧
        ∀ u ∈ k.spelling.units, isNameUnit u = true) ∨
      k.literalName = Text.quoteWith Text.singleQuote k.spelling := by
  cases k with
  | index i =>
    simp only [literalName, spelling]
    split
    · refine .inl ⟨rfl, Text.units_ofNat_ne_nil i, fun u hu => ?_⟩
      simp [isNameUnit, List.all_eq_true.1 (Text.all_isDigit_ofNat i) u hu]
    · exact .inr rfl
  | name t =>
    simp only [literalName, spelling]
    split
    · next h =>
      refine .inl ⟨rfl, ?_⟩
      rcases Bool.or_eq_true_iff.1 h with h | h
      · exact isNameUnit_of_isIdentifier h
      · exact isNameUnit_of_isBareIndex h
    · exact .inr rfl
  | symbol s => cases hsymbol

/-- A bare name does not start like a quoted one. -/
theorem bare_append_ne_quoted {us rest rest' : List UInt16} {t : Text} (hne : us ≠ [])
    (hus : ∀ u ∈ us, isNameUnit u = true) :
    us ++ rest ≠ (Text.quoteWith Text.singleQuote t).units ++ rest' := by
  intro h
  obtain ⟨u, us, rfl⟩ := List.exists_cons_of_ne_nil hne
  have hu := hus u List.mem_cons_self
  rw [(List.cons.inj h).1] at hu
  exact absurd hu (by decide)

/-- **A name determines its key**, and where the value starts. -/
theorem literalName_append_inj {k k' : Key} (hk : k.Canonical) (hk' : k'.Canonical)
    (hsymbol : k.isSymbol = false) (hsymbol' : k'.isSymbol = false) {rest rest' : List UInt16}
    (h : k.literalName.units ++ 0x3A :: rest = k'.literalName.units ++ 0x3A :: rest') :
    k = k' ∧ rest = rest' := by
  have hcolon (us : List UInt16) : ∀ u ∈ (0x3A :: us).head?, isNameUnit u = false := by
    intro u hu
    obtain rfl : 0x3A = u := Option.some.inj hu
    decide
  have hkey (hspelling : k.spelling = k'.spelling) : k = k' := by
    rw [← ofText_spelling hk hsymbol, hspelling, ofText_spelling hk' hsymbol']
  rcases literalName_cases hsymbol with ⟨hname, hne, hunits⟩ | hname <;>
    rcases literalName_cases hsymbol' with ⟨hname', hne', hunits'⟩ | hname' <;>
      rw [hname, hname'] at h
  · obtain ⟨hspelling, hrest⟩ := Text.append_inj_of_stop hunits hunits' (hcolon _) (hcolon _) h
    exact ⟨hkey (congrArg Text.mk hspelling), (List.cons.inj hrest).2⟩
  · exact absurd h (bare_append_ne_quoted hne hunits)
  · exact absurd h.symm (bare_append_ne_quoted hne' hunits')
  · obtain ⟨hspelling, hrest⟩ := Text.quoteWith_append_inj (.inr rfl) h
    exact ⟨hkey hspelling, (List.cons.inj hrest).2⟩

end Key

end ObjectModel
