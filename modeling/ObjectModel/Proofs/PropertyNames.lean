import ObjectModel.Proofs.NumberText
import ObjectModel.Proofs.StringLiteral

/-!
# Printed property names

Digits are the decimal form of the number that they spell exactly if no zero stands before others
(`eq_ofNat_of_digits`).  So the two tests for such texts, of array indexes and of indexes that are
written without quotes, accept the decimal forms of the numbers below their limits.

The name printed for the key of a text is the text if it is an identifier or the decimal form of a
number below `2 ^ 31`, and the text in single quotes otherwise, and no two keys have one name
(`printed_names`).  A key is an index below `2 ^ 32 - 1`: in between indexes are quoted, and what is
no index is no decimal form either.
-/

namespace ObjectModel

/-! ## Decimal forms -/

namespace Text

/-- What digits after a first one other than zero spell is positive. -/
theorem digitsValue_pos {u : UInt16} {us : List UInt16} (hu : isDigit u = true) (hne : u ≠ 0x30) :
    0 < digitsValue (u :: us) := by
  have hle := Number.le_foldl_digits us (10 * 0 + (u.toNat - 0x30))
  have hpos : 0 < u.toNat - 0x30 := by
    simp only [isDigit, Bool.and_eq_true, decide_eq_true_eq, UInt16.le_iff_toNat_le,
      UInt16.reduceToNat] at hu
    have hne : u.toNat ≠ 0x30 := fun heq => hne (UInt16.toNat_inj.1 heq)
    omega
  exact Nat.lt_of_lt_of_le (by omega) hle

theorem digitsValue_append (us : List UInt16) (u : UInt16) :
    digitsValue (us ++ [u]) = 10 * digitsValue us + (u.toNat - 0x30) := by
  rw [digitsValue, List.foldl_append]
  rfl

/-- A digit is the one of its value. -/
theorem eq_of_isDigit {u : UInt16} (hu : isDigit u = true) :
    u.toNat - 0x30 < 10 ∧ UInt16.ofNat (0x30 + (u.toNat - 0x30)) = u := by
  simp only [isDigit, Bool.and_eq_true, decide_eq_true_eq, UInt16.le_iff_toNat_le,
    UInt16.reduceToNat] at hu
  refine ⟨by omega, ?_⟩
  rw [Nat.add_sub_cancel' hu.1, UInt16.ofNat_toNat]

/-- **Digits without a zero before others are the decimal form of their number.** -/
theorem eq_ofNat_of_digits {us : List UInt16} (hne : us ≠ []) (hdigits : ∀ u ∈ us, isDigit u = true)
    (hzero : 1 < us.length → us.head? ≠ some 0x30) : us = (ofNat (digitsValue us)).units := by
  induction us using List.reverseRecOn with
  | nil => exact absurd rfl hne
  | append_singleton us u ih =>
    obtain ⟨hlt, hu⟩ := eq_of_isDigit (hdigits u (by simp))
    rw [digitsValue_append, units_ofNat]
    rcases us with _ | ⟨v, us⟩
    · rw [if_pos (by simpa [digitsValue] using hlt)]
      simp [digitsValue, hu]
    · -- the first digit is not zero, so the number has a digit before its last one
      have hv : v ≠ 0x30 := fun heq => hzero (by simp) (by simp [heq])
      have hpos : 0 < digitsValue (v :: us) := digitsValue_pos (hdigits v (by simp)) hv
      have hrest := ih (List.cons_ne_nil v us)
        (fun w hw => hdigits w (List.mem_append_left _ hw)) fun _ heq => hv (Option.some.inj heq)
      rw [if_neg (by omega), Nat.mul_add_div (by decide), Nat.div_eq_of_lt hlt, Nat.add_zero,
        ← hrest, Nat.mul_add_mod, Nat.mod_eq_of_lt hlt, hu]

theorem ofNat_inj {n n' : Nat} (h : ofNat n = ofNat n') : n = n' := by
  rw [← digitsValue_ofNat n, h, digitsValue_ofNat]

/-- A decimal form of more than one digit does not start with a zero. -/
theorem head?_ofNat_ne_zero {n : Nat} (h : 1 < (ofNat n).length) :
    (ofNat n).units.head? ≠ some 0x30 := by
  obtain ⟨u, hu, hne⟩ := head?_ofNat (pos_of_length h)
  rw [hu]
  exact fun heq => hne (Option.some.inj heq)

/-- **The array indexes are the decimal forms of the numbers below their limit.** -/
theorem arrayIndex?_eq_some_iff {t : Text} {n : Nat} :
    t.arrayIndex? = some n ↔ t = ofNat n ∧ n < indexLimit := by
  constructor
  · intro h
    unfold arrayIndex? at h
    split at h
    · cases h
    · next hform =>
      split at h
      · cases h
      · next hzero =>
        dsimp only at h
        split at h
        · next hlt =>
          cases h
          simp only [isEmpty, Bool.or_eq_true, List.isEmpty_iff, decide_eq_true_eq,
            Bool.not_eq_true', not_or, Bool.not_eq_false, List.all_eq_true] at hform
          simp only [Bool.and_eq_true, decide_eq_true_eq, beq_iff_eq, not_and] at hzero
          exact ⟨congrArg Text.mk (eq_ofNat_of_digits hform.1.1 hform.2 hzero), hlt⟩
        · cases h
  · rintro ⟨rfl, hlt⟩
    exact arrayIndex?_ofNat hlt

/-- **The indexes written bare are the decimal forms of the numbers up to their limit.** -/
theorem isBareIndex_iff {t : Text} :
    t.isBareIndex = true ↔ ∃ n ≤ bareIndexLimit, t = ofNat n := by
  simp only [isBareIndex, isEmpty, Bool.and_eq_true, Bool.not_eq_true', List.isEmpty_eq_false_iff,
    decide_eq_true_eq, Bool.and_eq_false_iff, decide_eq_false_iff_not, beq_eq_false_iff_ne,
    List.all_eq_true]
  constructor
  · rintro ⟨⟨⟨⟨hne, -⟩, hzero⟩, hdigits⟩, hle⟩
    refine ⟨_, hle, congrArg Text.mk (eq_ofNat_of_digits hne hdigits fun hlong => ?_)⟩
    exact hzero.resolve_left fun hshort => hshort hlong
  · rintro ⟨n, hle, rfl⟩
    have hlength : (ofNat n).length ≤ 9 + 1 :=
      length_ofNat_le (Nat.lt_of_le_of_lt hle (by decide))
    refine ⟨⟨⟨⟨units_ofNat_ne_nil n, hlength⟩, ?_⟩, List.all_eq_true.1 (all_isDigit_ofNat n)⟩, ?_⟩
    · rw [Classical.or_iff_not_imp_left, Classical.not_not]
      exact head?_ofNat_ne_zero
    · rwa [digitsValue_ofNat]

/-! ## Identifiers -/

/-- The units that an identifier may start with. -/
def nameStarts : List UInt16 :=
  (ofString "_$ABCDEFGHIJKLMNOPQRSTUVWXYZabcdefghijklmnopqrstuvwxyz").units

/-- The units that may follow. -/
def nameParts : List UInt16 := nameStarts ++ (ofString "0123456789").units

/-- A start of an identifier with further units of it. -/
def IsName (us : List UInt16) : Prop :=
  ∃ u rest, us = u :: rest ∧ u ∈ nameStarts ∧ ∀ v ∈ rest, v ∈ nameParts

/-- A test that accepts ASCII units only is membership in a list if it is so below U+0080. -/
theorem eq_true_iff_mem {p : UInt16 → Bool} {us : List UInt16}
    (hp : ∀ u, p u = true → u.toNat < 0x80) (hus : us.all (fun u => u.toNat < 0x80) = true)
    (h : ∀ n < 0x80, p (UInt16.ofNat n) = us.contains (UInt16.ofNat n)) {u : UInt16} :
    p u = true ↔ u ∈ us := by
  by_cases hu : u.toNat < 0x80
  · have hsame := h u.toNat hu
    rw [UInt16.ofNat_toNat] at hsame
    rw [hsame, List.contains_iff_mem]
  · refine iff_of_false (fun h => hu (hp u h)) fun hmem => hu ?_
    simpa using List.all_eq_true.1 hus u hmem

theorem isIdentifierStart_iff {u : UInt16} : isIdentifierStart u = true ↔ u ∈ nameStarts :=
  eq_true_iff_mem (fun _ => lt_of_isIdentifierStart) (by decide) (by decide +kernel)

theorem isNameUnit_iff {u : UInt16} : Key.isNameUnit u = true ↔ u ∈ nameParts := by
  refine eq_true_iff_mem (fun u hu => ?_) (by decide) (by decide +kernel)
  rcases Bool.or_eq_true_iff.1 hu with hu | hu
  · exact lt_of_isIdentifierStart hu
  · exact lt_of_isDigit hu

theorem isIdentifier_iff {t : Text} : t.isIdentifier = true ↔ IsName t.units := by
  unfold isIdentifier IsName
  cases t.units with
  | nil => simp
  | cons u rest =>
    have hrest : (rest.all fun v => isIdentifierStart v || isDigit v) = true ↔
        ∀ v ∈ rest, v ∈ nameParts := by
      rw [List.all_eq_true]
      exact forall₂_congr fun v _ => isNameUnit_iff
    simp only [Bool.and_eq_true, hrest, isIdentifierStart_iff, List.cons.injEq]
    constructor
    · exact fun h => ⟨u, rest, ⟨rfl, rfl⟩, h⟩
    · rintro ⟨_, _, ⟨rfl, rfl⟩, h⟩
      exact h

/-- A decimal form is no identifier. -/
theorem not_isName_ofNat (n : Nat) : ¬ IsName (ofNat n).units := by
  rintro ⟨u, rest, hunits, hu, -⟩
  have hdigit : isDigit u = true :=
    List.all_eq_true.1 (all_isDigit_ofNat n) u (hunits ▸ List.mem_cons_self)
  have hstarts : nameStarts.all (fun u => !isDigit u) = true := by decide
  have hnot := List.all_eq_true.1 hstarts u hu
  rw [hdigit] at hnot
  cases hnot

/-- Quoting makes a text longer. -/
theorem quoteWith_ne {mark : UInt16} (hmark : IsMark mark) (t : Text) : quoteWith mark t ≠ t := by
  have hle (us : List UInt16) : us.length ≤ (us.flatMap (escapeUnit mark)).length := by
    induction us with
    | nil => exact Nat.le_refl 0
    | cons u us ih =>
      obtain ⟨v, vs, hescape, -⟩ := exists_escapeUnit_eq hmark u
      rw [List.flatMap_cons, hescape, List.length_append, List.length_cons, List.length_cons]
      omega
  intro heq
  have hlength := congrArg (fun t : Text => t.units.length) heq
  simp only [quoteWith, List.length_append, List.length_cons, List.length_nil] at hlength
  have := hle t.units
  omega

end Text

/-! ## Names of keys -/

namespace Key

theorem canonical_ofText (t : Text) : (ofText t).Canonical ∧ (ofText t).isSymbol = false := by
  unfold ofText
  cases h : t.arrayIndex? with
  | none => exact ⟨h, rfl⟩
  | some n => exact ⟨(Text.arrayIndex?_eq_some_iff.1 h).2, rfl⟩

/-- The key of a text has this text. -/
theorem spelling_ofText (t : Text) : (ofText t).spelling = t := by
  unfold ofText
  cases h : t.arrayIndex? with
  | none => rfl
  | some n => exact (Text.arrayIndex?_eq_some_iff.1 h).1.symm

/-- The name of the key of a text by the form of the text. -/
theorem literalName_ofText (t : Text) :
    (Text.IsName t.units ∨ (∃ n ≤ 2147483647, t = Text.ofNat n)) ∧ (ofText t).literalName = t ∨
      ¬ (Text.IsName t.units ∨ ∃ n ≤ 2147483647, t = Text.ofNat n) ∧
        (ofText t).literalName = Text.quoteWith Text.singleQuote t := by
  unfold ofText
  cases h : t.arrayIndex? with
  | none =>
    dsimp only [literalName]
    rw [← Text.isIdentifier_iff]
    have hbare : (∃ n ≤ 2147483647, t = Text.ofNat n) ↔ t.isBareIndex = true :=
      Text.isBareIndex_iff.symm
    rw [hbare, ← Bool.or_eq_true]
    split
    · next hname => exact .inl ⟨hname, rfl⟩
    · next hname => exact .inr ⟨hname, rfl⟩
  | some n =>
    obtain ⟨rfl, -⟩ := Text.arrayIndex?_eq_some_iff.1 h
    dsimp only [literalName]
    split
    · next hle => exact .inl ⟨.inr ⟨n, hle, rfl⟩, rfl⟩
    · next hgt =>
      refine .inr ⟨?_, rfl⟩
      rintro (hname | ⟨n', hle, heq⟩)
      · exact Text.not_isName_ofNat n hname
      · exact hgt (Text.ofNat_inj heq ▸ hle)

/-- Names without what follows them determine the keys as well. -/
theorem literalName_inj {k k' : Key} (hk : k.Canonical) (hk' : k'.Canonical)
    (hsymbol : k.isSymbol = false) (hsymbol' : k'.isSymbol = false)
    (h : k.literalName = k'.literalName) : k = k' := by
  have hunits : k.literalName.units ++ [0x3A] = k'.literalName.units ++ [0x3A] := by rw [h]
  exact (literalName_append_inj hk hk' hsymbol hsymbol' hunits).1

/-- **The name printed for the key of a text** is the text itself if and only if it is an identifier
or the decimal form of a number up to `2 ^ 31 - 1`, and the text in single quotes, which is read back
as the text, if and only if it is not.  Two texts have one name only if they have one key, and one
key only if they are the same. -/
theorem printed_names (s : Text) :
    ((ofText s).literalName = s ↔
      Text.IsName s.units ∨ ∃ n ≤ 2147483647, s = Text.ofNat n) ∧
    ((ofText s).literalName = Text.quoteWith Text.singleQuote s ↔
      ¬ (Text.IsName s.units ∨ ∃ n ≤ 2147483647, s = Text.ofNat n)) ∧
    Text.stringLiteral? Text.singleQuote (Text.quoteWith Text.singleQuote s) = some s ∧
    ∀ s', ((ofText s').literalName = (ofText s).literalName ↔ ofText s' = ofText s) ∧
      (ofText s' = ofText s ↔ s' = s) := by
  have hmark : Text.IsMark Text.singleQuote := .inr rfl
  have hquoted := Text.quoteWith_ne hmark s
  refine ⟨?_, ?_, Text.stringLiteral?_quoteWith hmark s, fun s' => ⟨⟨fun h => ?_, fun h => ?_⟩,
    fun h => ?_, fun h => ?_⟩⟩
  · rcases literalName_ofText s with ⟨hform, hname⟩ | ⟨hform, hname⟩
    · exact iff_of_true hname hform
    · exact iff_of_false (fun h => hquoted (hname.symm.trans h)) hform
  · rcases literalName_ofText s with ⟨hform, hname⟩ | ⟨hform, hname⟩
    · exact iff_of_false (fun h => hquoted (h.symm.trans hname)) (not_not_intro hform)
    · exact iff_of_true hname hform
  · obtain ⟨hcanonical, hsymbol⟩ := canonical_ofText s
    obtain ⟨hcanonical', hsymbol'⟩ := canonical_ofText s'
    exact literalName_inj hcanonical' hcanonical hsymbol' hsymbol h
  · rw [h]
  · rw [← spelling_ofText s', h, spelling_ofText]
  · rw [h]

/-- The limits of bare indexes and of indexes, and a half of a surrogate pair. -/
example :
    (ofText "2147483647").literalName = "2147483647" ∧
    (ofText "2147483648").literalName = "'2147483648'" ∧
    (ofText "4294967295").literalName = "'4294967295'" ∧
    (ofText ⟨[0x61, 0xD83D]⟩).literalName = "'a\\uD83D'" := by decide +kernel

end Key

end ObjectModel
