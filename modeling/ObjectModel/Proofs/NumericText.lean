import ObjectModel.Proofs.Nearest
import ObjectModel.Proofs.NumberText

/-!
# Which texts are numbers

A text stands for a number if what is left of it without white space at its ends is nothing or a
numeric literal of the language (`NumericText`): a decimal literal or `Infinity` with an optional
sign, or a radix mark with digits of the radix, which has no sign and any number of digits.

`Number.ofText` reads these texts, with three exceptions.  It refuses digits after a radix mark whose
number needs more than sixty-four bits (`WideRadix`), it takes a plus sign there (`SignedRadix`), and
the white space that it drops is that of another table: U+0085 belongs to it and U+FEFF does not.
`numeric_texts_read` says that there are no more.
-/

namespace ObjectModel

/-! ## White space at the ends -/

namespace Text

/-- The units of white space and of line terminators in the language. -/
def spaces : List UInt16 :=
  [0x09, 0x0B, 0x0C, 0xFEFF, 0x20, 0xA0, 0x1680, 0x2000, 0x2001, 0x2002, 0x2003, 0x2004, 0x2005,
    0x2006, 0x2007, 0x2008, 0x2009, 0x200A, 0x202F, 0x205F, 0x3000, 0x0A, 0x0D, 0x2028, 0x2029]

def isSpace (u : UInt16) : Bool := spaces.contains u

/-- The text without such units at either end. -/
def strip (p : UInt16 → Bool) (t : Text) : Text :=
  ⟨((t.units.dropWhile p).reverse.dropWhile p).reverse⟩

theorem trim_eq_strip (t : Text) : t.trim = t.strip isBlank := rfl

/-- The two tables of white space differ in two units. -/
theorem isBlank_eq_isSpace_iff {u : UInt16} : isBlank u = isSpace u ↔ u ≠ 0x85 ∧ u ≠ 0xFEFF := by
  have hspace : isSpace u = true ↔ ∃ v ∈ spaces, u.toNat = v.toNat := by
    rw [isSpace, List.contains_iff_mem]
    exact ⟨fun h => ⟨u, h, rfl⟩, fun ⟨v, hv, heq⟩ => UInt16.toNat_inj.1 heq ▸ hv⟩
  rw [Bool.eq_iff_iff, hspace, ne_eq, ne_eq, ← UInt16.toNat_inj, ← UInt16.toNat_inj]
  simp only [isBlank, spaces, Bool.or_eq_true, Bool.and_eq_true, decide_eq_true_eq, beq_iff_eq,
    UInt16.le_iff_toNat_le, ← UInt16.toNat_inj, List.exists_mem_cons_iff, List.not_mem_nil,
    false_and, exists_false, or_false, UInt16.reduceToNat]
  omega

/-- A visible ASCII character. -/
def isVisible (u : UInt16) : Bool := 0x21 ≤ u && u ≤ 0x7E

theorem not_space_of_isVisible {u : UInt16} (h : isVisible u = true) :
    isBlank u = false ∧ isSpace u = false := by
  simp only [isVisible, Bool.and_eq_true, decide_eq_true_eq, UInt16.le_iff_toNat_le,
    UInt16.reduceToNat] at h
  have hblank : isBlank u = false := by
    rw [Bool.eq_false_iff]
    simp only [ne_eq, isBlank, Bool.or_eq_true, Bool.and_eq_true, decide_eq_true_eq, beq_iff_eq,
      UInt16.le_iff_toNat_le, ← UInt16.toNat_inj, UInt16.reduceToNat]
    omega
  refine ⟨hblank, ?_⟩
  rw [← isBlank_eq_isSpace_iff.2 ⟨?_, ?_⟩, hblank]
  · rintro rfl
    exact absurd h.2 (by decide)
  · rintro rfl
    exact absurd h.2 (by decide)

theorem isVisible_of_isDigit {u : UInt16} (h : isDigit u = true) : isVisible u = true := by
  simp only [isDigit, isVisible, Bool.and_eq_true, decide_eq_true_eq, UInt16.le_iff_toNat_le,
    UInt16.reduceToNat] at h ⊢
  omega

variable {p q : UInt16 → Bool}

/-- What is stripped from a text stands around what is left. -/
theorem exists_strip (p : UInt16 → Bool) (t : Text) :
    ∃ before after, t.units = before ++ ((t.strip p).units ++ after) ∧
      (∀ u ∈ before, p u = true) ∧ ∀ u ∈ after, p u = true := by
  refine ⟨t.units.takeWhile p, ((t.units.dropWhile p).reverse.takeWhile p).reverse, ?_,
    fun u hu => List.mem_takeWhile_imp hu, fun u hu => ?_⟩
  · have hback := List.takeWhile_append_dropWhile (p := p) (l := (t.units.dropWhile p).reverse)
    rw [strip, ← List.reverse_append, hback, List.reverse_reverse,
      List.takeWhile_append_dropWhile]
  · exact List.mem_takeWhile_imp (List.mem_reverse.1 hu)

theorem strip_append {before units after : List UInt16} (hbefore : ∀ u ∈ before, p u = true)
    (hafter : ∀ u ∈ after, p u = true) (hunits : ∀ u ∈ units, p u = false) :
    strip p ⟨before ++ (units ++ after)⟩ = ⟨units⟩ := by
  have hhead (vs : List UInt16) (hvs : ∀ u ∈ vs, p u = false) : ∀ u ∈ vs.head?, p u = false :=
    fun u hu => hvs u (List.mem_of_mem_head? hu)
  rw [strip, List.dropWhile_append_of_pos hbefore]
  rcases units with _ | ⟨u, rest⟩
  · rw [List.nil_append, List.dropWhile_eq_nil_iff.2 hafter]
    rfl
  · have hfront : ((u :: rest) ++ after).dropWhile p = (u :: rest) ++ after := by
      rw [List.cons_append, List.dropWhile_cons_of_neg]
      simp [hunits u List.mem_cons_self]
    have hback : ∀ v ∈ after.reverse, p v = true := fun v hv => hafter v (List.mem_reverse.1 hv)
    have hrest : ∀ v ∈ (u :: rest).reverse, p v = false :=
      fun v hv => hunits v (List.mem_reverse.1 hv)
    rw [hfront, List.reverse_append, (span_append hback (hhead _ hrest)).2, List.reverse_reverse]

/-- Where neither table occurs in what both leave, both leave the same. -/
theorem strip_eq_strip {t : Text} (hp : ∀ u ∈ (t.strip p).units, p u = false ∧ q u = false)
    (hq : ∀ u ∈ (t.strip q).units, p u = false ∧ q u = false) : t.strip p = t.strip q := by
  have hboth {r : UInt16 → Bool} (hr : ∀ u, r u = true → (p u || q u) = true)
      (hleft : ∀ u ∈ (t.strip r).units, p u = false ∧ q u = false) :
      t.strip (fun u => p u || q u) = t.strip r := by
    obtain ⟨before, after, hunits, hbefore, hafter⟩ := exists_strip r t
    have hstrip := strip_append (p := fun u => p u || q u) (fun u hu => hr u (hbefore u hu))
      (fun u hu => hr u (hafter u hu)) fun u hu => by
        rw [(hleft u hu).1, (hleft u hu).2, Bool.or_false]
    rwa [← hunits] at hstrip
  rw [← hboth (fun u hu => by rw [hu, Bool.true_or]) hp,
    hboth (fun u hu => by rw [hu, Bool.or_true]) hq]

end Text

namespace Number

open Text (isVisible)

/-! ## Numeric literals -/

/-- The signs that may stand before a literal or a power. -/
def signs : List (List UInt16) := [[], [0x2B], [0x2D]]

/-- One decimal digit or more. -/
structure Digits (us : List UInt16) : Prop where
  ne_nil : us ≠ []
  digit : ∀ u ∈ us, Text.isDigit u = true

/-- Nothing, or a power of ten. -/
inductive Power : List UInt16 → Prop where
  | none : Power []
  | some {mark : UInt16} {sign digits : List UInt16} (hmark : mark = 0x65 ∨ mark = 0x45)
      (hsign : sign ∈ signs) (hdigits : Digits digits) : Power (mark :: (sign ++ digits))

/-- A decimal literal without a sign. -/
inductive DecimalText : List UInt16 → Prop where
  | whole {digits power : List UInt16} (hdigits : Digits digits) (hpower : Power power) :
      DecimalText (digits ++ power)
  | point {digits fraction power : List UInt16} (hdigits : Digits digits)
      (hfraction : fraction = [] ∨ Digits fraction) (hpower : Power power) :
      DecimalText (digits ++ 0x2E :: (fraction ++ power))
  | fraction {digits power : List UInt16} (hdigits : Digits digits) (hpower : Power power) :
      DecimalText (0x2E :: (digits ++ power))

/-- The letters after a zero that announce a radix. -/
def radixMarks : List (UInt16 × Nat) :=
  [(0x78, 16), (0x58, 16), (0x6F, 8), (0x4F, 8), (0x62, 2), (0x42, 2)]

/-- The value of a digit: its place among all digits, in lower or in upper case. -/
def place? (u : UInt16) : Option Nat :=
  ((Text.ofString "0123456789abcdef").units.idxOf? u).or
    ((Text.ofString "0123456789ABCDEF").units.idxOf? u)

/-- One digit of the radix or more. -/
structure RadixDigits (radix : Nat) (us : List UInt16) : Prop where
  ne_nil : us ≠ []
  digit : ∀ u ∈ us, ∃ v < radix, place? u = some v

theorem radixDigits_iff {radix : Nat} {us : List UInt16} :
    RadixDigits radix us ↔ us ≠ [] ∧ (us.all fun u => (place? u).any (· < radix)) = true := by
  have hdigit (u : UInt16) :
      (place? u).any (fun v => decide (v < radix)) = true ↔ ∃ v < radix, place? u = some v := by
    cases place? u <;> simp
  rw [List.all_eq_true]
  exact ⟨fun h => ⟨h.ne_nil, fun u hu => (hdigit u).2 (h.digit u hu)⟩,
    fun h => ⟨h.1, fun u hu => (hdigit u).1 (h.2 u hu)⟩⟩

instance (radix : Nat) (us : List UInt16) : Decidable (RadixDigits radix us) :=
  decidable_of_iff' _ radixDigits_iff

/-- The number that digits of a radix spell. -/
def radixNumber (radix : Nat) (us : List UInt16) : Nat :=
  us.foldl (fun n u => n * radix + (place? u).getD 0) 0

/-- A numeric literal of the language. -/
inductive NumericText : List UInt16 → Prop where
  | infinity {sign : List UInt16} (hsign : sign ∈ signs) :
      NumericText (sign ++ (Text.ofString "Infinity").units)
  | decimal {sign us : List UInt16} (hsign : sign ∈ signs) (hus : DecimalText us) :
      NumericText (sign ++ us)
  | radix {mark : UInt16} {radix : Nat} {digits : List UInt16} (hmark : (mark, radix) ∈ radixMarks)
      (hdigits : RadixDigits radix digits) : NumericText (0x30 :: mark :: digits)

/-- Digits after a radix mark whose number has more than sixty-four bits. -/
def WideRadix (us : List UInt16) : Prop :=
  ∃ mark radix digits, (mark, radix) ∈ radixMarks ∧ RadixDigits radix digits ∧
    radixLimit ≤ radixNumber radix digits ∧ us = 0x30 :: mark :: digits

/-- Digits after a radix mark and a plus sign. -/
def SignedRadix (us : List UInt16) : Prop :=
  ∃ mark radix digits, (mark, radix) ∈ radixMarks ∧ RadixDigits radix digits ∧
    radixNumber radix digits < radixLimit ∧ us = 0x30 :: mark :: 0x2B :: digits

/-! ## Decimal literals -/

theorem exists_sign (us : List UInt16) : ∃ sign ∈ signs, us = sign ++ (takeSign us).2 := by
  unfold takeSign
  split
  · exact ⟨[0x2D], by decide, rfl⟩
  · exact ⟨[0x2B], by decide, rfl⟩
  · exact ⟨[], by decide, rfl⟩

theorem takeSign_append {sign us : List UInt16} (hsign : sign ∈ signs)
    (hus : ∀ u ∈ us.head?, Text.isDigit u = true ∨ u = 0x2E) : (takeSign (sign ++ us)).2 = us := by
  simp only [signs, List.mem_cons, List.not_mem_nil, or_false] at hsign
  rcases hsign with rfl | rfl | rfl
  · unfold takeSign
    split
    · next rest heq =>
      rw [List.nil_append] at heq
      exact absurd (hus 0x2D (heq ▸ rfl)) (by decide)
    · next rest heq =>
      rw [List.nil_append] at heq
      exact absurd (hus 0x2B (heq ▸ rfl)) (by decide)
    · rfl
  · rfl
  · rfl

theorem Digits.head {us rest : List UInt16} (h : Digits us) :
    ∀ u ∈ (us ++ rest).head?, Text.isDigit u = true := by
  obtain ⟨u, us, rfl⟩ := List.exists_cons_of_ne_nil h.ne_nil
  intro v hv
  obtain rfl : u = v := Option.some.inj hv
  exact h.digit u List.mem_cons_self

/-- A power starts with no digit and no point. -/
theorem Power.head {us : List UInt16} (h : Power us) :
    ∀ u ∈ us.head?, Text.isDigit u = false ∧ u ≠ 0x2E := by
  intro v hv
  cases h with
  | none => cases hv
  | some hmark _ _ =>
    obtain rfl := Option.some.inj hv
    rcases hmark with rfl | rfl <;> decide

theorem readPower?_isSome_iff {us : List UInt16} : (readPower? us).isSome = true ↔ Power us := by
  constructor
  · intro h
    cases us with
    | nil => exact .none
    | cons u rest =>
      obtain ⟨sign, hsign, hrest⟩ := exists_sign rest
      rw [readPower?] at h
      split at h
      · next hmark =>
        dsimp only at h
        split at h
        · cases h
        · next hdigits =>
          rw [hrest]
          simp only [Bool.or_eq_true, List.isEmpty_iff, Bool.not_eq_true', Bool.not_eq_false,
            not_or, List.all_eq_true] at hdigits
          exact .some (by simpa using hmark) hsign ⟨hdigits.1, hdigits.2⟩
      · cases h
  · intro h
    cases h with
    | none => rfl
    | @some mark sign digits hmark hsign hdigits =>
      have hsplit : (takeSign (sign ++ digits)).2 = digits := by
        refine takeSign_append hsign fun u hu => .inl ?_
        rw [← List.append_nil digits] at hu
        exact hdigits.head u hu
      have hall : digits.all Text.isDigit = true := List.all_eq_true.2 hdigits.digit
      rw [readPower?, if_pos (by simpa using hmark)]
      dsimp only
      rw [hsplit, if_neg (by simp [hdigits.ne_nil, hall])]
      rfl

/-- A literal without a point is read. -/
theorem readLiteral?_whole {us digits power : List UInt16}
    (hus : (takeSign us).2 = digits ++ power) (hdigits : Digits digits) (hpower : Power power) :
    (readLiteral? us).isSome = true := by
  obtain ⟨htake, hdrop⟩ := Text.span_append hdigits.digit fun u hu => (hpower.head u hu).1
  have hread := readPower?_isSome_iff.2 hpower
  unfold readLiteral?
  dsimp only
  rw [hus, htake, hdrop]
  split
  · exact absurd rfl (hpower.head 0x2E rfl).2
  · simpa [hdigits.ne_nil] using hread

/-- A literal with a point and a digit on either side of it is read. -/
theorem readLiteral?_point {us whole fraction power : List UInt16}
    (hus : (takeSign us).2 = whole ++ 0x2E :: (fraction ++ power))
    (hwhole : ∀ u ∈ whole, Text.isDigit u = true)
    (hfraction : ∀ u ∈ fraction, Text.isDigit u = true) (hne : whole ≠ [] ∨ fraction ≠ [])
    (hpower : Power power) : (readLiteral? us).isSome = true := by
  have hstop : ∀ u ∈ (0x2E :: (fraction ++ power)).head?, Text.isDigit u = false := by
    intro u hu
    obtain rfl := Option.some.inj hu
    decide
  obtain ⟨htake, hdrop⟩ := Text.span_append hwhole hstop
  obtain ⟨htake', hdrop'⟩ := Text.span_append hfraction fun u hu => (hpower.head u hu).1
  have hread := readPower?_isSome_iff.2 hpower
  unfold readLiteral?
  dsimp only
  rw [hus, htake, hdrop]
  have hsome : ¬ (whole = [] ∧ fraction = []) := not_and_or.2 hne
  simpa [htake', hdrop', hsome] using hread

/-- What is read is a literal. -/
theorem decimalText_of_readLiteral? {us : List UInt16} (h : (readLiteral? us).isSome = true) :
    DecimalText (takeSign us).2 := by
  unfold readLiteral? at h
  dsimp only at h
  generalize (takeSign us).2 = vs at h ⊢
  have hdigits (ws : List UInt16) : ∀ u ∈ ws.takeWhile Text.isDigit, Text.isDigit u = true :=
    fun u hu => List.mem_takeWhile_imp hu
  have hsplit := List.takeWhile_append_dropWhile (p := Text.isDigit) (l := vs)
  split at h
  · next rest hrest =>
    -- a point, with the fraction after it
    dsimp only at h
    split at h
    · cases h
    · next hne =>
      rw [Option.isSome_map, readPower?_isSome_iff] at h
      have hsplit' := List.takeWhile_append_dropWhile (p := Text.isDigit) (l := rest)
      rw [← hsplit, hrest, ← hsplit']
      simp only [Bool.and_eq_true, List.isEmpty_iff, not_and_or] at hne
      by_cases hwhole : vs.takeWhile Text.isDigit = []
      · rw [hwhole]
        exact .fraction ⟨hne.resolve_left fun hnot => hnot hwhole, hdigits rest⟩ h
      · refine .point ⟨hwhole, hdigits vs⟩ ?_ h
        rw [Classical.or_iff_not_imp_left]
        exact fun hfraction => ⟨hfraction, hdigits rest⟩
  · next hrest =>
    dsimp only at h
    split at h
    · cases h
    · next hne =>
      rw [Option.isSome_map, readPower?_isSome_iff] at h
      rw [← hsplit]
      exact .whole ⟨by simpa using hne, hdigits vs⟩ h

theorem DecimalText.head {us : List UInt16} (h : DecimalText us) :
    ∀ u ∈ us.head?, Text.isDigit u = true ∨ u = 0x2E := by
  intro u hu
  cases h with
  | whole hdigits _ => exact .inl (hdigits.head u hu)
  | point hdigits _ _ => exact .inl (hdigits.head u hu)
  | fraction _ _ => exact .inr (Option.some.inj hu).symm

/-- **The reader of literals accepts the decimal literals with an optional sign.** -/
theorem readLiteral?_isSome_iff {us : List UInt16} :
    (readLiteral? us).isSome = true ↔ ∃ sign ∈ signs, ∃ rest, us = sign ++ rest ∧
      DecimalText rest := by
  constructor
  · intro h
    obtain ⟨sign, hsign, hus⟩ := exists_sign us
    exact ⟨sign, hsign, _, hus, decimalText_of_readLiteral? h⟩
  · rintro ⟨sign, hsign, rest, rfl, hrest⟩
    have hsplit := takeSign_append hsign hrest.head
    cases hrest with
    | whole hdigits hpower => exact readLiteral?_whole hsplit hdigits hpower
    | point hdigits hfraction hpower =>
      refine readLiteral?_point hsplit hdigits.digit (fun u hu => ?_) (.inl hdigits.ne_nil) hpower
      rcases hfraction with rfl | hfraction
      · cases hu
      · exact hfraction.digit u hu
    | fraction hdigits hpower =>
      rw [← List.nil_append (0x2E :: _)] at hsplit
      exact readLiteral?_point hsplit (fun u hu => by cases hu) hdigits.digit
        (.inr hdigits.ne_nil) hpower

theorem ofCode_ne_nan (negative : Bool) (code : Nat) : ofCode negative code ≠ .nan := by
  unfold ofCode
  split <;> exact fun h => by cases h

theorem Literal.toNumber_ne_nan (l : Literal) : l.toNumber ≠ .nan := by
  unfold toNumber
  dsimp only
  split
  · exact ofCode_ne_nan _ _
  split
  · exact fun h => by cases h
  · split <;> exact ofCode_ne_nan _ _

theorem readDecimal_ne_nan_iff {us : List UInt16} :
    readDecimal us ≠ .nan ↔ (readLiteral? us).isSome = true := by
  unfold readDecimal
  cases readLiteral? us with
  | none => simp
  | some l => simpa using l.toNumber_ne_nan

/-! ## Digits after a radix mark -/

/-- The radix of a mark. -/
theorem radixOfMark?_eq_some_iff {mark : UInt16} {radix : Nat} :
    radixOfMark? mark = some radix ↔ (mark, radix) ∈ radixMarks := by
  unfold radixOfMark?
  simp only [radixMarks, List.mem_cons, Prod.mk.injEq, List.not_mem_nil, or_false]
  constructor
  · intro h
    split at h
    · next hmark =>
      cases h
      rcases Bool.or_eq_true_iff.1 hmark with hmark | hmark <;> simp [eq_of_beq hmark]
    split at h
    · next hmark =>
      cases h
      rcases Bool.or_eq_true_iff.1 hmark with hmark | hmark <;> simp [eq_of_beq hmark]
    split at h
    · next hmark =>
      cases h
      rcases Bool.or_eq_true_iff.1 hmark with hmark | hmark <;> simp [eq_of_beq hmark]
    · cases h
  · rintro (⟨rfl, rfl⟩ | ⟨rfl, rfl⟩ | ⟨rfl, rfl⟩ | ⟨rfl, rfl⟩ | ⟨rfl, rfl⟩ | ⟨rfl, rfl⟩) <;> rfl

theorem mem_radixes {mark : UInt16} {radix : Nat} (h : (mark, radix) ∈ radixMarks) :
    radix ∈ [16, 8, 2] := by
  simp only [radixMarks, List.mem_cons, Prod.mk.injEq, List.not_mem_nil, or_false] at h ⊢
  omega

theorem isVisible_of_place? {u : UInt16} {v : Nat} (h : place? u = some v) :
    isVisible u = true := by
  have hall : ((Text.ofString "0123456789abcdef").units ++
      (Text.ofString "0123456789ABCDEF").units).all isVisible = true := by decide
  have hmem : u ∈ (Text.ofString "0123456789abcdef").units ++
      (Text.ofString "0123456789ABCDEF").units := by
    rw [List.mem_append, ← List.isSome_idxOf?, ← List.isSome_idxOf?]
    rcases Option.or_eq_some_iff.1 h with h | ⟨-, h⟩
    · exact .inl (Option.isSome_of_eq_some h)
    · exact .inr (Option.isSome_of_eq_some h)
  exact List.all_eq_true.1 hall u hmem

/-- A digit is read as its place among the digits, if that is below the radix. -/
theorem digitValue?_eq {radix : Nat} (hradix : radix ∈ [16, 8, 2]) (u : UInt16) :
    digitValue? radix u = (place? u).filter (· < radix) := by
  by_cases hu : u.toNat < 0x80
  · have hall : ∀ n < 0x80, ∀ radix ∈ [16, 8, 2], digitValue? radix (UInt16.ofNat n) =
        (place? (UInt16.ofNat n)).filter (· < radix) := by decide +kernel
    have hsame := hall u.toNat hu radix hradix
    rwa [UInt16.ofNat_toNat] at hsame
  · have hplace : place? u = none := by
      cases hplace : place? u with
      | none => rfl
      | some v =>
        have hvisible := isVisible_of_place? hplace
        simp only [isVisible, Bool.and_eq_true, decide_eq_true_eq, UInt16.le_iff_toNat_le,
          UInt16.reduceToNat] at hvisible
        omega
    have hdigit : Text.isDigit u = false := by
      rw [Bool.eq_false_iff]
      exact fun hdigit => hu (Text.lt_of_isDigit hdigit)
    have hlower : (0x61 ≤ u.toNat && u.toNat ≤ 0x66) = false := by
      rw [Bool.and_eq_false_iff, decide_eq_false_iff_not, decide_eq_false_iff_not]
      omega
    have hupper : (0x41 ≤ u.toNat && u.toNat ≤ 0x46) = false := by
      rw [Bool.and_eq_false_iff, decide_eq_false_iff_not, decide_eq_false_iff_not]
      omega
    simp [digitValue?, hplace, hdigit, hlower, hupper]

/-- Digits spell at least what stands before them. -/
theorem le_foldl_radix {radix : Nat} (hradix : 0 < radix) (us : List UInt16) (n : Nat) :
    n ≤ us.foldl (fun n u => n * radix + (place? u).getD 0) n := by
  induction us generalizing n with
  | nil => exact Nat.le_refl n
  | cons u us ih =>
    calc n ≤ n * radix := Nat.le_mul_of_pos_right n hradix
      _ ≤ n * radix + (place? u).getD 0 := Nat.le_add_right _ _
      _ ≤ _ := ih _

/-- **Digits are read as their number, if it is below the limit.** -/
theorem radixValue?_eq_some_iff {radix : Nat} (hradix : radix ∈ [16, 8, 2]) {us : List UInt16}
    {n v : Nat} (hn : n < radixLimit) :
    radixValue? radix us n = some v ↔ (∀ u ∈ us, ∃ v < radix, place? u = some v) ∧
      us.foldl (fun n u => n * radix + (place? u).getD 0) n = v ∧ v < radixLimit := by
  have hpos : 0 < radix := by
    simp only [List.mem_cons, List.not_mem_nil, or_false] at hradix
    omega
  induction us generalizing n with
  | nil =>
    simp only [radixValue?, Option.some.injEq, List.not_mem_nil, false_imp_iff, implies_true,
      List.foldl_nil, true_and]
    exact ⟨fun h => ⟨h, h ▸ hn⟩, fun h => h.1⟩
  | cons u us ih =>
    rw [radixValue?, digitValue?_eq hradix, List.forall_mem_cons, List.foldl_cons]
    cases hplace : place? u with
    | none => simp
    | some d =>
      by_cases hd : d < radix
      · rw [Option.filter_some, if_pos (by simpa using hd), Option.getD_some]
        dsimp only
        split
        · next hlt =>
          refine (ih hlt).trans ?_
          simp [hd]
        · next hle =>
          -- the number only grows from here on
          have hgrows := le_foldl_radix hpos us (n * radix + d)
          constructor
          · intro h
            cases h
          · rintro ⟨-, rfl, hlt⟩
            exact absurd (Nat.lt_of_le_of_lt hgrows hlt) hle
      · rw [Option.filter_some, if_neg (by simpa using hd)]
        constructor
        · intro h
          cases h
        · rintro ⟨⟨⟨w, hw, hsome⟩, -⟩, -⟩
          exact absurd ((Option.some.inj hsome) ▸ hw) hd

theorem ofNat_ne_nan (n : Nat) : ofNat n ≠ .nan := ofCode_ne_nan _ _

/-- No digit is a plus sign. -/
theorem RadixDigits.ne_plus {radix : Nat} {us rest : List UInt16} (h : RadixDigits radix us) :
    us ≠ 0x2B :: rest := by
  rintro rfl
  obtain ⟨v, -, hv⟩ := h.digit 0x2B List.mem_cons_self
  have hnone : place? 0x2B = none := by decide
  rw [hnone] at hv
  cases hv

/-- The number of the digits, without the plus sign. -/
theorem readRadix_bare {radix : Nat} {us : List UInt16} (hus : ∀ rest, us ≠ 0x2B :: rest) :
    readRadix radix us =
      if us.isEmpty then .nan else ((radixValue? radix us 0).map ofNat).getD .nan := by
  unfold readRadix
  split
  · exact absurd rfl (hus _)
  · rfl

/-- **After a radix mark digits of the radix are read, with an optional plus sign before them**, if
their number is below the limit. -/
theorem readRadix_eq {radix : Nat} (hradix : radix ∈ [16, 8, 2]) {us digits : List UInt16}
    (hus : us = digits ∨ us = 0x2B :: digits) (hdigits : RadixDigits radix digits) :
    readRadix radix us =
      if radixNumber radix digits < radixLimit then ofNat (radixNumber radix digits) else .nan := by
  have hread : readRadix radix us =
      if digits.isEmpty then .nan else ((radixValue? radix digits 0).map ofNat).getD .nan := by
    rcases hus with rfl | rfl
    · exact readRadix_bare fun _ => hdigits.ne_plus
    · rfl
  rw [hread, if_neg (by simpa using hdigits.ne_nil)]
  split
  · next hlt =>
    rw [(radixValue?_eq_some_iff hradix (by decide)).2 ⟨hdigits.digit, rfl, hlt⟩]
    rfl
  · next hle =>
    cases hvalue : radixValue? radix digits 0 with
    | none => rfl
    | some v =>
      obtain ⟨-, rfl, hlt⟩ := (radixValue?_eq_some_iff hradix (by decide)).1 hvalue
      exact absurd hlt hle

/-- What is read after a radix mark has this form. -/
theorem radixDigits_of_readRadix {radix : Nat} (hradix : radix ∈ [16, 8, 2]) {us : List UInt16}
    (h : readRadix radix us ≠ .nan) :
    ∃ digits, (us = digits ∨ us = 0x2B :: digits) ∧ RadixDigits radix digits ∧
      radixNumber radix digits < radixLimit := by
  obtain ⟨digits, hus, hread⟩ : ∃ digits, (us = digits ∨ us = 0x2B :: digits) ∧
      readRadix radix us =
        if digits.isEmpty then .nan else ((radixValue? radix digits 0).map ofNat).getD .nan := by
    by_cases hplus : ∃ rest, us = 0x2B :: rest
    · obtain ⟨rest, rfl⟩ := hplus
      exact ⟨rest, .inr rfl, rfl⟩
    · exact ⟨us, .inl rfl, readRadix_bare fun rest heq => hplus ⟨rest, heq⟩⟩
  rw [hread] at h
  split at h
  · exact absurd rfl h
  · next hne =>
    cases hvalue : radixValue? radix digits 0 with
    | none =>
      rw [hvalue] at h
      exact absurd rfl h
    | some v =>
      obtain ⟨hall, rfl, hlt⟩ := (radixValue?_eq_some_iff hradix (by decide)).1 hvalue
      exact ⟨digits, hus, ⟨by simpa using hne, hall⟩, hlt⟩

/-! ## Literals and their forms -/

section Radix

variable {mark : UInt16} {radix : Nat} (hmark : (mark, radix) ∈ radixMarks) {rest : List UInt16}

include hmark

/-- A text with a radix mark is no decimal literal. -/
theorem readLiteral?_radix : readLiteral? (0x30 :: mark :: rest) = none := by
  simp only [radixMarks, List.mem_cons, Prod.mk.injEq, List.not_mem_nil, or_false] at hmark
  rcases hmark with ⟨rfl, -⟩ | ⟨rfl, -⟩ | ⟨rfl, -⟩ | ⟨rfl, -⟩ | ⟨rfl, -⟩ | ⟨rfl, -⟩ <;> rfl

/-- A mark announces one radix. -/
theorem radix_unique {radix' : Nat} (hmark' : (mark, radix') ∈ radixMarks) : radix' = radix :=
  Option.some.inj ((radixOfMark?_eq_some_iff.2 hmark').symm.trans (radixOfMark?_eq_some_iff.2 hmark))

theorem numericText_radix_iff : NumericText (0x30 :: mark :: rest) ↔ RadixDigits radix rest := by
  refine ⟨fun h => ?_, fun h => .radix hmark h⟩
  generalize hus : 0x30 :: mark :: rest = us at h
  cases h with
  | infinity hsign =>
    simp only [signs, List.mem_cons, List.not_mem_nil, or_false] at hsign
    rcases hsign with rfl | rfl | rfl <;> exact absurd (List.cons.inj hus).1 (by decide)
  | decimal hsign hdecimal =>
    have hsome := readLiteral?_isSome_iff.2 ⟨_, hsign, _, hus, hdecimal⟩
    rw [readLiteral?_radix hmark] at hsome
    cases hsome
  | radix hmark' hdigits =>
    cases hus
    exact radix_unique hmark hmark' ▸ hdigits

theorem wideRadix_radix_iff : WideRadix (0x30 :: mark :: rest) ↔
    RadixDigits radix rest ∧ radixLimit ≤ radixNumber radix rest := by
  refine ⟨fun ⟨_, _, _, hmark', hdigits, hwide, heq⟩ => ?_,
    fun h => ⟨mark, radix, rest, hmark, h.1, h.2, rfl⟩⟩
  cases heq
  cases radix_unique hmark hmark'
  exact ⟨hdigits, hwide⟩

theorem signedRadix_radix_iff : SignedRadix (0x30 :: mark :: rest) ↔
    ∃ digits, rest = 0x2B :: digits ∧ RadixDigits radix digits ∧
      radixNumber radix digits < radixLimit := by
  refine ⟨fun ⟨_, _, digits, hmark', hdigits, hlt, heq⟩ => ?_,
    fun ⟨digits, heq, hdigits, hlt⟩ => ⟨mark, radix, digits, hmark, hdigits, hlt, heq ▸ rfl⟩⟩
  cases heq
  cases radix_unique hmark hmark'
  exact ⟨digits, rfl, hdigits, hlt⟩

theorem readTrimmed_radix : readTrimmed ⟨0x30 :: mark :: rest⟩ = readRadix radix rest := by
  have hinfinity (s : String) (hs : (Text.ofString s).units.head? ≠ some 0x30) :
      ((⟨0x30 :: mark :: rest⟩ : Text) == Text.ofString s) = false := by
    rw [beq_eq_false_iff_ne]
    exact fun heq => hs (congrArg (fun t : Text => t.units.head?) heq).symm
  unfold readTrimmed
  rw [if_neg (by simp [Text.isEmpty]), hinfinity _ (by decide), hinfinity _ (by decide),
    hinfinity _ (by decide), if_neg (by decide), if_neg (by decide)]
  simp only [radixOfMark?_eq_some_iff.2 hmark]

end Radix

/-- A text without a radix mark is read as an infinity or as a decimal literal. -/
theorem readTrimmed_ne_nan_of_unmarked {us : List UInt16} (hne : us ≠ [])
    (hus : ¬ ∃ mark radix rest, (mark, radix) ∈ radixMarks ∧ us = 0x30 :: mark :: rest) :
    readTrimmed ⟨us⟩ ≠ .nan ↔ NumericText us := by
  have hdecimal : NumericText us ↔ (∃ sign ∈ signs, us = sign ++ (Text.ofString "Infinity").units) ∨
      readDecimal us ≠ .nan := by
    rw [readDecimal_ne_nan_iff, readLiteral?_isSome_iff]
    constructor
    · intro h
      cases h with
      | infinity hsign => exact .inl ⟨_, hsign, rfl⟩
      | decimal hsign h => exact .inr ⟨_, hsign, _, rfl, h⟩
      | radix hmark _ => exact absurd ⟨_, _, _, hmark, rfl⟩ hus
    · rintro (⟨sign, hsign, rfl⟩ | ⟨sign, hsign, rest, rfl, h⟩)
      · exact .infinity hsign
      · exact .decimal hsign h
  rw [hdecimal]
  unfold readTrimmed
  rw [if_neg (by simpa [Text.isEmpty] using hne)]
  split
  · next hinfinity =>
    refine iff_of_true (fun h => by cases h) (.inl ?_)
    rcases Bool.or_eq_true_iff.1 hinfinity with heq | heq
    · exact ⟨[], by decide, congrArg Text.units (eq_of_beq heq)⟩
    · exact ⟨[0x2B], by decide, congrArg Text.units (eq_of_beq heq)⟩
  split
  · next hinfinity =>
    refine iff_of_true (fun h => by cases h) (.inl ⟨[0x2D], by decide, ?_⟩)
    exact congrArg Text.units (eq_of_beq hinfinity)
  · next hplus hminus =>
    have hfinite : ¬ ∃ sign ∈ signs, us = sign ++ (Text.ofString "Infinity").units := by
      rintro ⟨sign, hsign, rfl⟩
      simp only [signs, List.mem_cons, List.not_mem_nil, or_false] at hsign
      rcases hsign with rfl | rfl | rfl
      · exact hplus (by decide)
      · exact hplus (by decide)
      · exact hminus (by decide)
    rw [or_iff_right hfinite]
    split
    · next u rest heq =>
      cases hmark : radixOfMark? u with
      | none => exact Iff.rfl
      | some radix => exact absurd ⟨u, radix, rest, radixOfMark?_eq_some_iff.1 hmark, heq⟩ hus
    · exact Iff.rfl

/-- **The texts that are read are the numeric literals without the wide ones, and those with a plus
sign after a radix mark.** -/
theorem readTrimmed_ne_nan_iff {us : List UInt16} :
    readTrimmed ⟨us⟩ ≠ .nan ↔
      us = [] ∨ NumericText us ∧ ¬ WideRadix us ∨ SignedRadix us := by
  by_cases hform : ∃ mark radix rest, (mark, radix) ∈ radixMarks ∧ us = 0x30 :: mark :: rest
  · obtain ⟨mark, radix, rest, hmark, rfl⟩ := hform
    have hradix := mem_radixes hmark
    rw [readTrimmed_radix hmark, numericText_radix_iff hmark, wideRadix_radix_iff hmark,
      signedRadix_radix_iff hmark]
    constructor
    · intro h
      obtain ⟨digits, hrest, hdigits, hlt⟩ := radixDigits_of_readRadix hradix h
      rcases hrest with rfl | rfl
      · exact .inr (.inl ⟨hdigits, fun hwide => absurd hlt (Nat.not_lt.2 hwide.2)⟩)
      · exact .inr (.inr ⟨digits, rfl, hdigits, hlt⟩)
    · rintro (h | ⟨hdigits, hnarrow⟩ | ⟨digits, rfl, hdigits, hlt⟩)
      · cases h
      · have hlt : radixNumber radix rest < radixLimit :=
          Nat.not_le.1 fun hwide => hnarrow ⟨hdigits, hwide⟩
        rw [readRadix_eq hradix (.inl rfl) hdigits, if_pos hlt]
        exact ofNat_ne_nan _
      · rw [readRadix_eq hradix (.inr rfl) hdigits, if_pos hlt]
        exact ofNat_ne_nan _
  · have hwide : ¬ WideRadix us := fun ⟨mark, radix, _, hmark, _, _, heq⟩ =>
      hform ⟨mark, radix, _, hmark, heq⟩
    have hsigned : ¬ SignedRadix us := fun ⟨mark, radix, _, hmark, _, _, heq⟩ =>
      hform ⟨mark, radix, _, hmark, heq⟩
    rcases us with _ | ⟨u, us⟩
    · exact iff_of_true (fun h => by cases h) (.inl rfl)
    · rw [readTrimmed_ne_nan_of_unmarked (List.cons_ne_nil u us) hform]
      simp [hwide, hsigned]

/-- The language and the reader agree on a text if it is none of the two forms. -/
theorem agree_iff {us : List UInt16} :
    ((us = [] ∨ NumericText us ∧ ¬ WideRadix us ∨ SignedRadix us) ↔ us = [] ∨ NumericText us) ↔
      ¬ WideRadix us ∧ ¬ SignedRadix us := by
  have hwide (h : WideRadix us) : us ≠ [] ∧ NumericText us ∧ ¬ SignedRadix us := by
    obtain ⟨mark, radix, digits, hmark, hdigits, -, rfl⟩ := h
    refine ⟨List.cons_ne_nil _ _, .radix hmark hdigits, fun hsigned => ?_⟩
    obtain ⟨rest, rfl, -⟩ := (signedRadix_radix_iff hmark).1 hsigned
    exact hdigits.ne_plus rfl
  have hsigned (h : SignedRadix us) : us ≠ [] ∧ ¬ NumericText us := by
    obtain ⟨mark, radix, digits, hmark, -, -, rfl⟩ := h
    refine ⟨List.cons_ne_nil _ _, fun hliteral => ?_⟩
    exact ((numericText_radix_iff hmark).1 hliteral).ne_plus rfl
  tauto

/-! ## What is read has no white space -/

theorem isVisible_of_mem_signs {sign : List UInt16} (hsign : sign ∈ signs) :
    ∀ u ∈ sign, isVisible u = true := by
  have hall : (signs.all fun sign => sign.all isVisible) = true := by decide
  exact List.all_eq_true.1 (List.all_eq_true.1 hall sign hsign)

theorem isVisible_of_append {us vs : List UInt16} (hus : ∀ u ∈ us, isVisible u = true)
    (hvs : ∀ u ∈ vs, isVisible u = true) : ∀ u ∈ us ++ vs, isVisible u = true := by
  intro u hu
  rcases List.mem_append.1 hu with hu | hu
  · exact hus u hu
  · exact hvs u hu

theorem Digits.visible {us : List UInt16} (h : Digits us) : ∀ u ∈ us, isVisible u = true :=
  fun u hu => Text.isVisible_of_isDigit (h.digit u hu)

theorem RadixDigits.visible {radix : Nat} {us : List UInt16} (h : RadixDigits radix us) :
    ∀ u ∈ us, isVisible u = true := by
  intro u hu
  obtain ⟨v, -, hv⟩ := h.digit u hu
  exact isVisible_of_place? hv

theorem Power.visible {us : List UInt16} (h : Power us) : ∀ u ∈ us, isVisible u = true := by
  cases h with
  | none => exact fun u hu => by cases hu
  | some hmark hsign hdigits =>
    refine List.forall_mem_cons.2 ⟨?_, isVisible_of_append (isVisible_of_mem_signs hsign)
      hdigits.visible⟩
    rcases hmark with rfl | rfl <;> decide

theorem DecimalText.visible {us : List UInt16} (h : DecimalText us) :
    ∀ u ∈ us, isVisible u = true := by
  have hpoint {us : List UInt16} (hus : ∀ u ∈ us, isVisible u = true) :
      ∀ u ∈ 0x2E :: us, isVisible u = true := List.forall_mem_cons.2 ⟨by decide, hus⟩
  cases h with
  | whole hdigits hpower => exact isVisible_of_append hdigits.visible hpower.visible
  | point hdigits hfraction hpower =>
    refine isVisible_of_append hdigits.visible (hpoint (isVisible_of_append ?_ hpower.visible))
    rcases hfraction with rfl | hfraction
    · exact fun u hu => by cases hu
    · exact hfraction.visible
  | fraction hdigits hpower =>
    exact hpoint (isVisible_of_append hdigits.visible hpower.visible)

/-- A mark with its zero is visible. -/
theorem isVisible_of_radix {mark : UInt16} {radix : Nat} (hmark : (mark, radix) ∈ radixMarks)
    {us : List UInt16} (hus : ∀ u ∈ us, isVisible u = true) :
    ∀ u ∈ 0x30 :: mark :: us, isVisible u = true := by
  have hall : (radixMarks.all fun e => isVisible e.1) = true := by decide
  exact List.forall_mem_cons.2 ⟨by decide,
    List.forall_mem_cons.2 ⟨List.all_eq_true.1 hall _ hmark, hus⟩⟩

theorem NumericText.visible {us : List UInt16} (h : NumericText us) :
    ∀ u ∈ us, isVisible u = true := by
  cases h with
  | infinity hsign =>
    have hall : (Text.ofString "Infinity").units.all isVisible = true := by decide
    exact isVisible_of_append (isVisible_of_mem_signs hsign) (List.all_eq_true.1 hall)
  | decimal hsign h => exact isVisible_of_append (isVisible_of_mem_signs hsign) h.visible
  | radix hmark hdigits => exact isVisible_of_radix hmark hdigits.visible

theorem visible_of_read {us : List UInt16} (h : readTrimmed ⟨us⟩ ≠ .nan) :
    ∀ u ∈ us, isVisible u = true := by
  rcases readTrimmed_ne_nan_iff.1 h with
    rfl | ⟨hliteral, -⟩ | ⟨mark, radix, digits, hmark, hdigits, -, rfl⟩
  · exact fun u hu => by cases hu
  · exact hliteral.visible
  · exact isVisible_of_radix hmark (List.forall_mem_cons.2 ⟨by decide, hdigits.visible⟩)

/-! ## Numbers of sixty-four bits -/

/-- What is nearest to a number of sixty-four bits is finite. -/
theorem Nearest.lt_infiniteCode {code : Nat} {x : ℚ} (h : Nearest code x) (hpos : 0 ≤ x)
    (hx : x < 2 ^ 64) : code < infiniteCode := by
  by_contra hinfinite
  have hs : significand infiniteCode = 2 ^ 52 := by decide
  have he : exponent infiniteCode = 972 := by decide
  have htop : (2 : ℚ) * 2 ^ 64 ≤ magnitude code := by
    calc (2 : ℚ) * 2 ^ 64 = 2 ^ 52 * 2 ^ (13 : Int) := by norm_num
      _ ≤ 2 ^ 52 * 2 ^ (972 : Int) :=
          mul_le_mul_of_nonneg_left (zpow_le_zpow_right₀ (by norm_num) (by norm_num))
            (by norm_num)
      _ = magnitude infiniteCode := by
          rw [magnitude, hs, he, Nat.cast_pow, Nat.cast_ofNat]
      _ ≤ magnitude code := magnitude_strictMono.monotone (Nat.not_lt.1 hinfinite)
  -- zero is nearer
  have hle := h.le 0
  rw [magnitude_zero, zero_sub, abs_neg, abs_of_nonneg hpos, abs_of_pos (by linarith)] at hle
  linarith

theorem ofNat_nearest {n : Nat} (hn : n < radixLimit) :
    ∃ code, ofNat n = .finite false code ∧ Nearest code n := by
  have hnearest : Nearest (nearestCode n 1) n := by
    simpa using nearest_nearestCode n (Nat.one_pos)
  have hsmall : (n : ℚ) < 2 ^ 64 := by
    calc (n : ℚ) < radixLimit := by exact_mod_cast hn
      _ = 2 ^ 64 := by norm_num [radixLimit]
  have hfinite := hnearest.lt_infiniteCode (Nat.cast_nonneg n) hsmall
  exact ⟨⟨_, hfinite⟩, dif_pos hfinite, hnearest⟩

/-! ## Texts read as numbers -/

/-- **Which texts are read as a number other than not-a-number**, against the numeric literals of the
language.  Between white space of the one table these are nothing, the literals whose digits after a
radix mark fit in sixty-four bits, and such digits after a plus sign; after a radix mark the number
is the one nearest to all the digits.  The tables differ in U+0085 and U+FEFF.  So a text is read
against the language exactly if it is one of the wide or signed forms, or if the tables leave
different texts of which either is accepted. -/
theorem numeric_texts_read (t : Text) :
    (ofText t ≠ .nan ↔ t.trim.units = [] ∨
      NumericText t.trim.units ∧ ¬ WideRadix t.trim.units ∨ SignedRadix t.trim.units) ∧
    (∀ mark radix digits, (mark, radix) ∈ radixMarks → RadixDigits radix digits →
      t.trim.units = 0x30 :: mark :: digits ∨ t.trim.units = 0x30 :: mark :: 0x2B :: digits →
      if radixNumber radix digits < radixLimit then
        ∃ code, ofText t = .finite false code ∧ Nearest code (radixNumber radix digits)
      else ofText t = .nan) ∧
    (∀ u, Text.isBlank u = Text.isSpace u ↔ u ≠ 0x85 ∧ u ≠ 0xFEFF) ∧
    ((ofText t ≠ .nan ↔
        (t.strip Text.isSpace).units = [] ∨ NumericText (t.strip Text.isSpace).units) ↔
      if t.trim = t.strip Text.isSpace then
        ¬ WideRadix t.trim.units ∧ ¬ SignedRadix t.trim.units
      else ofText t = .nan ∧
        ¬ ((t.strip Text.isSpace).units = [] ∨ NumericText (t.strip Text.isSpace).units)) := by
  have hread : ofText t ≠ .nan ↔ t.trim.units = [] ∨
      NumericText t.trim.units ∧ ¬ WideRadix t.trim.units ∨ SignedRadix t.trim.units :=
    readTrimmed_ne_nan_iff
  refine ⟨hread, fun mark radix digits hmark hdigits hform => ?_, fun u =>
    Text.isBlank_eq_isSpace_iff, ?_⟩
  · have hvalue : ofText t = if radixNumber radix digits < radixLimit then
        ofNat (radixNumber radix digits) else .nan := by
      have hradix := mem_radixes hmark
      rw [ofText]
      rcases hform with hform | hform
      · rw [show t.trim = ⟨0x30 :: mark :: digits⟩ from congrArg Text.mk hform,
          readTrimmed_radix hmark, readRadix_eq hradix (.inl rfl) hdigits]
      · rw [show t.trim = ⟨0x30 :: mark :: 0x2B :: digits⟩ from congrArg Text.mk hform,
          readTrimmed_radix hmark, readRadix_eq hradix (.inr rfl) hdigits]
    split
    · next hlt =>
      rw [hvalue, if_pos hlt]
      exact ofNat_nearest hlt
    · next hle => rw [hvalue, if_neg hle]
  · split
    · next hsame =>
      rw [← hsame, hread]
      exact agree_iff
    · next hdiffer =>
      have hnotboth : ¬ (ofText t ≠ .nan ∧ ((t.strip Text.isSpace).units = [] ∨
          NumericText (t.strip Text.isSpace).units)) := by
        rintro ⟨hcode, hliteral⟩
        refine hdiffer (Text.strip_eq_strip (fun u hu => ?_) fun u hu => ?_)
        · exact Text.not_space_of_isVisible (visible_of_read hcode u hu)
        · rcases hliteral with hnil | hliteral
          · rw [hnil] at hu
            cases hu
          · exact Text.not_space_of_isVisible (hliteral.visible u hu)
      tauto

/-- Digits that fit and digits that do not, a sign that does not belong there, and the units that only
one of the tables has. -/
theorem numeric_texts_read_otherwise :
    (∃ code, ofText "0xffffffffffffffff" = .finite false code ∧
      Nearest code (radixNumber 16 (Text.ofString "ffffffffffffffff").units)) ∧
    (ofText "0x10000000000000000" = .nan ∧
      NumericText (Text.ofString "0x10000000000000000").units) ∧
    (ofText "0b+101" ≠ .nan ∧ ¬ NumericText (Text.ofString "0b+101").units) ∧
    (ofText "\uFEFF1" = .nan ∧ NumericText ((Text.ofString "\uFEFF1").strip Text.isSpace).units) ∧
    (ofText "\u00851" ≠ .nan ∧
      ¬ NumericText ((Text.ofString "\u00851").strip Text.isSpace).units) := by
  have hhex : ((0x78 : UInt16), 16) ∈ radixMarks := by decide
  have hbinary : ((0x62 : UInt16), 2) ∈ radixMarks := by decide
  have hfits := (numeric_texts_read "0xffffffffffffffff").2.1 0x78 16
    (Text.ofString "ffffffffffffffff").units hhex (by decide) (.inl (by decide))
  have hwide := (numeric_texts_read "0x10000000000000000").2.1 0x78 16
    (Text.ofString "10000000000000000").units hhex (by decide) (.inl (by decide))
  have hsigned := (numeric_texts_read "0b+101").1.2
    (.inr (.inr ⟨0x62, 2, (Text.ofString "101").units, hbinary, by decide, by decide, by decide⟩))
  rw [if_pos (by decide)] at hfits
  rw [if_neg (by decide)] at hwide
  have hone : NumericText [0x31] := by
    have hdigits : Digits [0x31] := ⟨List.cons_ne_nil _ _, by simpa using (by decide)⟩
    have hsign : [] ∈ signs := by decide
    exact .decimal hsign (.whole hdigits .none)
  refine ⟨hfits, ⟨hwide, .radix hhex (by decide)⟩, ⟨hsigned, fun hliteral => ?_⟩,
    ⟨by decide +kernel, ?_⟩, by decide +kernel, fun hliteral => ?_⟩
  · have hdigits := (numericText_radix_iff hbinary).1 hliteral
    exact hdigits.ne_plus rfl
  · exact hone
  · exact absurd (hliteral.visible 0x85 (by decide)) (by decide)

end Number

end ObjectModel
