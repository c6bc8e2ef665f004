import ObjectModel.Number.Reading
import ObjectModel.Proofs.Quotation
import ObjectModel.Proofs.Rounding

/-!
# The text of a number determines it

The text of a finite number is a decimal literal: read back, it has the sign of the number, and
its value is the shortest decimal of the magnitude.  Not-a-number and the infinities are no
decimal literals.  So two numbers have the same text exactly when they are the same up to the sign
of zero.
-/

namespace ObjectModel

/-! ## Characters and units -/

namespace Text

theorem units_ofChars_append (cs ds : List Char) :
    (ofChars (cs ++ ds)).units = (ofChars cs).units ++ (ofChars ds).units :=
  List.flatMap_append

theorem units_ofChars_cons (c : Char) (cs : List Char) :
    (ofChars (c :: cs)).units = unitsOfChar c ++ (ofChars cs).units :=
  List.flatMap_cons

/-- A digit is one unit, of the same number. -/
theorem unitsOfChar_of_isDigit {c : Char} (hc : c.isDigit = true) :
    ∃ u, unitsOfChar c = [u] ∧ isDigit u = true ∧ u.toNat = c.toNat := by
  have hlt := lt_of_isDigit_char hc
  have hnat : (UInt16.ofNat c.toNat).toNat = c.toNat :=
    UInt16.toNat_ofNat_of_lt' (Nat.lt_trans hlt (by decide))
  refine ⟨UInt16.ofNat c.toNat, if_pos (by omega), ?_, hnat⟩
  simp only [Char.isDigit, Bool.and_eq_true, decide_eq_true_eq, UInt32.le_iff_toNat_le,
    ge_iff_le] at hc
  simp only [isDigit, Bool.and_eq_true, decide_eq_true_eq, UInt16.le_iff_toNat_le, hnat,
    UInt16.reduceToNat]
  exact hc

theorem isDigit_of_mem_ofChars {cs : List Char} (hcs : ∀ c ∈ cs, c.isDigit = true) {u : UInt16}
    (hu : u ∈ (ofChars cs).units) : isDigit u = true := by
  obtain ⟨c, hc, hu⟩ := List.mem_flatMap.1 hu
  obtain ⟨v, hv, hdigit, -⟩ := unitsOfChar_of_isDigit (hcs c hc)
  rw [hv, List.mem_singleton] at hu
  rwa [hu]

theorem length_ofChars {cs : List Char} (hcs : ∀ c ∈ cs, c.isDigit = true) :
    (ofChars cs).units.length = cs.length := by
  induction cs with
  | nil => rfl
  | cons c cs ih =>
    obtain ⟨u, hu, -⟩ := unitsOfChar_of_isDigit (hcs c List.mem_cons_self)
    have hrest := ih fun c hc => hcs c (List.mem_cons_of_mem _ hc)
    rw [units_ofChars_cons, hu, List.length_append, hrest, List.length_singleton, List.length_cons,
      Nat.add_comm]

/-- The number that digits spell, as characters and as units. -/
theorem digitsValue_ofChars {cs : List Char} (hcs : ∀ c ∈ cs, c.isDigit = true) :
    digitsValue (ofChars cs).units = Nat.ofDigitChars 10 cs 0 := by
  have hfold (n : Nat) : (ofChars cs).units.foldl (fun n u => 10 * n + (u.toNat - 0x30)) n =
      Nat.ofDigitChars 10 cs n := by
    induction cs generalizing n with
    | nil => rfl
    | cons c cs ih =>
      obtain ⟨u, hu, -, hnat⟩ := unitsOfChar_of_isDigit (hcs c List.mem_cons_self)
      rw [units_ofChars_cons, hu, List.singleton_append, List.foldl_cons, hnat,
        ih fun c hc => hcs c (List.mem_cons_of_mem _ hc), Nat.ofDigitChars_cons]
      rfl
  exact hfold 0

end Text

/-! ## Decimals written out -/

namespace Decimal

/-- The text of a decimal cut at the point and at the mark of the power. -/
structure Written (d : Decimal) (whole fraction tail : List Char) (power : Int) : Prop where
  text : d.toChars = whole ++ ((if fraction = [] then [] else '.' :: fraction) ++ tail)
  whole_ne_nil : whole ≠ []
  digits : ∀ c ∈ whole ++ fraction, c.isDigit = true
  value : (Nat.ofDigitChars 10 (whole ++ fraction) 0 : ℚ) * 10 ^ (power - fraction.length) = d.value
  tail : tail = [] ∧ power = 0 ∨ tail = 'e' :: signedDigits power ∧
    power = d.exponent + (Nat.toDigits 10 d.coefficient).length - 1

variable {d : Decimal}

theorem digits_of_append {cs ds : List Char} (hcs : ∀ c ∈ cs, c.isDigit = true)
    (hds : ∀ c ∈ ds, c.isDigit = true) : ∀ c ∈ cs ++ ds, c.isDigit = true := by
  intro c hc
  rcases List.mem_append.1 hc with hc | hc
  · exact hcs c hc
  · exact hds c hc

/-- The point stands after the digits. -/
theorem written_whole (n : Nat) (hexponent : d.exponent = n)
    (htext : d.toChars = Nat.toDigits 10 d.coefficient ++ zeros n) :
    d.Written (Nat.toDigits 10 d.coefficient ++ zeros n) [] [] 0 where
  text := by simpa using htext
  whole_ne_nil := by simp [Nat.toDigits_ne_nil]
  digits := by
    rw [List.append_nil]
    exact digits_of_append (fun _ => Text.isDigit_of_mem_toDigits) fun _ => isDigit_of_mem_zeros
  value := by
    rw [List.append_nil, Nat.ofDigitChars_append, Nat.ofDigitChars_ten_toDigits, zeros,
      Nat.ofDigitChars_replicate_zero, value, hexponent]
    simp [mul_comm]
  tail := .inl ⟨rfl, rfl⟩

/-- The point stands among the digits, or after the first of them if a power follows. -/
theorem written_cut {tail : List Char} (power : Int) (n : Nat) (hn : 0 < n)
    (hexponent : d.exponent = power - ((Nat.toDigits 10 d.coefficient).drop n).length)
    (htext : d.toChars = (Nat.toDigits 10 d.coefficient).take n ++
      ((if (Nat.toDigits 10 d.coefficient).drop n = [] then []
        else '.' :: (Nat.toDigits 10 d.coefficient).drop n) ++ tail))
    (htail : tail = [] ∧ power = 0 ∨ tail = 'e' :: signedDigits power ∧
      power = d.exponent + (Nat.toDigits 10 d.coefficient).length - 1) :
    d.Written ((Nat.toDigits 10 d.coefficient).take n) ((Nat.toDigits 10 d.coefficient).drop n)
      tail power where
  text := htext
  whole_ne_nil := by
    simp [List.take_eq_nil_iff, Nat.toDigits_ne_nil]
    omega
  digits := by
    rw [List.take_append_drop]
    exact fun _ => Text.isDigit_of_mem_toDigits
  value := by
    rw [List.take_append_drop, Nat.ofDigitChars_ten_toDigits, ← hexponent, value]
  tail := htail

/-- The point stands before the digits. -/
theorem written_small (n : Nat)
    (hexponent : d.exponent = -((n + (Nat.toDigits 10 d.coefficient).length : Nat) : Int))
    (htext : d.toChars = '0' :: '.' :: zeros n ++ Nat.toDigits 10 d.coefficient) :
    d.Written ['0'] (zeros n ++ Nat.toDigits 10 d.coefficient) [] 0 where
  text := by simpa [Nat.toDigits_ne_nil] using htext
  whole_ne_nil := by simp
  digits := by
    refine digits_of_append (by simp) ?_
    exact digits_of_append (fun _ => isDigit_of_mem_zeros) fun _ => Text.isDigit_of_mem_toDigits
  value := by
    have hzeros : Nat.ofDigitChars 10 (zeros n) 0 = 0 := by
      rw [zeros, Nat.ofDigitChars_replicate_zero, Nat.mul_zero]
    have hzero : Nat.ofDigitChars 10 ['0'] 0 = 0 := rfl
    rw [Nat.ofDigitChars_append, Nat.ofDigitChars_append, hzero, hzeros,
      Nat.ofDigitChars_ten_toDigits, value, hexponent]
    simp [zeros]
  tail := .inl ⟨rfl, rfl⟩

theorem exists_written (d : Decimal) :
    ∃ whole fraction tail power, d.Written whole fraction tail power := by
  have hpos : 0 < (Nat.toDigits 10 d.coefficient).length := Nat.length_toDigits_pos
  obtain ⟨k, hk⟩ : ∃ k, (Nat.toDigits 10 d.coefficient).length = k := ⟨_, rfl⟩
  by_cases hwhole : k ≤ d.exponent + k ∧ d.exponent + k ≤ layout.placesAfter
  · refine ⟨_, _, _, _, written_whole d.exponent.toNat (by omega) ?_⟩
    have hzeros : (d.exponent + k).toNat - k = d.exponent.toNat := by omega
    simp only [toChars, hk, if_pos hwhole, hzeros]
  by_cases hcut : 0 < d.exponent + k ∧ d.exponent + k ≤ layout.placesAfter
  · refine ⟨_, _, _, _, written_cut 0 (d.exponent + k).toNat (by omega) ?_ ?_ (.inl ⟨rfl, rfl⟩)⟩
    · rw [List.length_drop, hk]
      omega
    · have hdrop : (Nat.toDigits 10 d.coefficient).drop (d.exponent + k).toNat ≠ [] := by
        rw [ne_eq, List.drop_eq_nil_iff, hk]
        omega
      simp only [toChars, hk, if_neg hwhole, if_pos hcut, if_neg hdrop, List.append_nil]
  by_cases hsmall : -(layout.zerosBefore : Int) < d.exponent + k ∧ d.exponent + k ≤ 0
  · refine ⟨_, _, _, _, written_small (-(d.exponent + k)).toNat ?_ ?_⟩
    · rw [hk]
      omega
    · simp only [toChars, hk, if_neg hwhole, if_neg hcut, if_pos hsmall]
  · refine ⟨_, _, _, _, written_cut (d.exponent + k - 1) 1 (by omega) ?_ ?_
      (.inr ⟨rfl, by rw [hk]⟩)⟩
    · rw [List.length_drop, hk]
      omega
    · have hone : (Nat.toDigits 10 d.coefficient).drop 1 = [] ↔ k = 1 := by
        rw [List.drop_eq_nil_iff, hk]
        omega
      simp only [toChars, hk, if_neg hwhole, if_neg hcut, if_neg hsmall, hone, List.append_assoc]

end Decimal

/-! ## Reading a literal -/

namespace Number

/-- The number that a decimal literal stands for, apart from its sign. -/
def Literal.value (l : Literal) : ℚ :=
  Text.digitsValue (l.whole ++ l.fraction) * 10 ^ (l.power - l.fraction.length)

theorem takeSign_digit {u : UInt16} {rest : List UInt16} (hu : Text.isDigit u = true) :
    takeSign (u :: rest) = (false, u :: rest) := by
  unfold takeSign
  split
  · next heq =>
    cases heq
    exact absurd hu (by decide)
  · next heq =>
    cases heq
    exact absurd hu (by decide)
  · rfl

/-- A literal is read apart as it was put together. -/
theorem readLiteral?_eq {whole fraction tail : List UInt16} {power : Int} (negative : Bool)
    (hne : whole ≠ []) (hwhole : ∀ u ∈ whole, Text.isDigit u = true)
    (hfraction : ∀ u ∈ fraction, Text.isDigit u = true)
    (hstop : ∀ u ∈ tail.head?, Text.isDigit u = false ∧ u ≠ 0x2E)
    (hpower : readPower? tail = some power) :
    readLiteral? ((if negative then [0x2D] else []) ++
      (whole ++ ((if fraction = [] then [] else 0x2E :: fraction) ++ tail))) =
        some ⟨negative, whole, fraction, power⟩ := by
  have hsign (rest : List UInt16) : takeSign ((if negative then [0x2D] else []) ++
      (whole ++ rest)) = (negative, whole ++ rest) := by
    cases negative with
    | true => rfl
    | false =>
      obtain ⟨u, us, rfl⟩ := List.exists_cons_of_ne_nil hne
      exact takeSign_digit (hwhole u List.mem_cons_self)
  have htail : ∀ u ∈ tail.head?, Text.isDigit u = false := fun u hu => (hstop u hu).1
  unfold readLiteral?
  rw [hsign]
  by_cases hnil : fraction = []
  · subst hnil
    obtain ⟨htake, hdrop⟩ := Text.span_append hwhole htail
    simp only [if_true, List.nil_append, htake, hdrop]
    split
    · exact absurd rfl (hstop 0x2E rfl).2
    · simp [hne, hpower]
  · have hpoint : ∀ u ∈ (0x2E :: fraction ++ tail).head?, Text.isDigit u = false := by
      simp
      decide
    obtain ⟨htake, hdrop⟩ := Text.span_append hwhole hpoint
    obtain ⟨htake', hdrop'⟩ := Text.span_append hfraction htail
    simp only [if_neg hnil, List.cons_append] at htake hdrop ⊢
    rw [htake, hdrop]
    simp [htake', hdrop', hpower, hne]

/-! ### Powers -/

theorem le_foldl_digits (us : List UInt16) (n : Nat) :
    n ≤ us.foldl (fun n u => 10 * n + (u.toNat - 0x30)) n := by
  induction us generalizing n with
  | nil => exact Nat.le_refl n
  | cons u us ih => exact Nat.le_trans (show n ≤ 10 * n + (u.toNat - 0x30) by omega) (ih _)

/-- A power below the ceiling is read in full. -/
theorem powerValue_eq {us : List UInt16} (h : Text.digitsValue us < powerCeiling) :
    powerValue us = Text.digitsValue us := by
  unfold Text.digitsValue at h
  unfold powerValue Text.digitsValue
  generalize 0 = n at h ⊢
  induction us generalizing n with
  | nil => rfl
  | cons u us ih =>
    have hle := le_foldl_digits us (10 * n + (u.toNat - 0x30))
    simp only [List.foldl_cons] at h ⊢
    rw [if_pos (by omega)]
    exact ih _ h

theorem readPower?_signedDigits {power : Int} (h : power.natAbs < powerCeiling) :
    readPower? (Text.ofChars ('e' :: Decimal.signedDigits power)).units = some power := by
  have hdigits : ∀ c ∈ Nat.toDigits 10 power.natAbs, c.isDigit = true :=
    fun _ => Text.isDigit_of_mem_toDigits
  have hall : (Text.ofChars (Nat.toDigits 10 power.natAbs)).units.all Text.isDigit = true :=
    List.all_eq_true.2 fun u hu => Text.isDigit_of_mem_ofChars hdigits hu
  have hvalue : Text.digitsValue (Text.ofChars (Nat.toDigits 10 power.natAbs)).units =
      power.natAbs := by
    rw [Text.digitsValue_ofChars hdigits, Nat.ofDigitChars_ten_toDigits]
  have hne : (Text.ofChars (Nat.toDigits 10 power.natAbs)).units ≠ [] := by
    rw [← List.length_pos_iff, Text.length_ofChars hdigits]
    exact Nat.length_toDigits_pos
  have hpower := powerValue_eq (hvalue.trans_lt h)
  rw [hvalue] at hpower
  have hsign : takeSign (Text.ofChars (Decimal.signedDigits power)).units =
      (decide (power < 0), (Text.ofChars (Nat.toDigits 10 power.natAbs)).units) := by
    rw [Decimal.signedDigits, Text.units_ofChars_cons]
    split
    · next hneg =>
      rw [decide_eq_true hneg]
      rfl
    · next hneg =>
      rw [decide_eq_false hneg]
      rfl
  have he : Text.unitsOfChar 'e' = [0x65] := by decide
  rw [Text.units_ofChars_cons, he, List.singleton_append]
  simp only [readPower?, hsign, hall, hpower]
  rw [if_pos (by decide), if_neg (by simpa using hne)]
  refine congrArg some ?_
  split
  · next hneg =>
    have := of_decide_eq_true hneg
    omega
  · next hneg =>
    have := of_decide_eq_false (Bool.eq_false_iff.2 hneg)
    omega

/-! ### Decimals -/

/-- **A decimal that is written out is read back** with its sign and its value. -/
theorem readLiteral?_toChars {d : Decimal} (negative : Bool)
    (hpower : (d.exponent + (Nat.toDigits 10 d.coefficient).length - 1).natAbs < powerCeiling) :
    ∃ l, readLiteral? (Text.ofChars ((if negative then ['-'] else []) ++ d.toChars)).units =
        some l ∧ l.negative = negative ∧ l.value = d.value := by
  obtain ⟨whole, fraction, tail, power, hwritten⟩ := d.exists_written
  have hwhole : ∀ c ∈ whole, c.isDigit = true := fun c hc =>
    hwritten.digits c (List.mem_append_left _ hc)
  have hfraction : ∀ c ∈ fraction, c.isDigit = true := fun c hc =>
    hwritten.digits c (List.mem_append_right _ hc)
  have hnil : (Text.ofChars fraction).units = [] ↔ fraction = [] := by
    rw [← List.length_eq_zero_iff, Text.length_ofChars hfraction, List.length_eq_zero_iff]
  have htext : (Text.ofChars ((if negative then ['-'] else []) ++ d.toChars)).units =
      (if negative then [0x2D] else []) ++ ((Text.ofChars whole).units ++
        ((if (Text.ofChars fraction).units = [] then [] else 0x2E :: (Text.ofChars fraction).units)
          ++ (Text.ofChars tail).units)) := by
    rw [hwritten.text]
    simp only [Text.units_ofChars_append, hnil]
    congr 1
    · cases negative <;> rfl
    · congr 2
      split <;> rfl
  have hne : (Text.ofChars whole).units ≠ [] := by
    rw [← List.length_pos_iff, Text.length_ofChars hwhole, List.length_pos_iff]
    exact hwritten.whole_ne_nil
  have htail : (∀ u ∈ (Text.ofChars tail).units.head?, Text.isDigit u = false ∧ u ≠ 0x2E) ∧
      readPower? (Text.ofChars tail).units = some power := by
    rcases hwritten.tail with ⟨rfl, rfl⟩ | ⟨rfl, rfl⟩
    · exact ⟨nofun, rfl⟩
    · refine ⟨fun u hu => ?_, readPower?_signedDigits hpower⟩
      obtain rfl : 0x65 = u := Option.some.inj hu
      decide
  have hvalue : Literal.value ⟨negative, (Text.ofChars whole).units, (Text.ofChars fraction).units,
      power⟩ = d.value := by
    rw [Literal.value, ← hwritten.value, ← Text.units_ofChars_append,
      Text.digitsValue_ofChars hwritten.digits, Text.length_ofChars hfraction]
  exact ⟨_, htext ▸ readLiteral?_eq negative hne (fun _ => Text.isDigit_of_mem_ofChars hwhole)
    (fun _ => Text.isDigit_of_mem_ofChars hfraction) htail.1 htail.2, rfl, hvalue⟩

end Number

/-! ## The text of a number -/

namespace Decimal

/-- The order of a decimal is within the powers that its value is between. -/
theorem natAbs_order_lt {d : Decimal} (hlow : (10 : ℚ) ^ (-400 : Int) < d.value)
    (hhigh : d.value < 10 ^ (400 : Int)) :
    (d.exponent + (Nat.toDigits 10 d.coefficient).length - 1).natAbs < Number.powerCeiling := by
  have hpos : 0 < d.coefficient := by
    by_contra hzero
    have hzero : d.coefficient = 0 := by omega
    rw [value, hzero, Nat.cast_zero, zero_mul] at hlow
    exact absurd hlow (not_lt.2 (by positivity))
  obtain ⟨order, horder, hle, hlt⟩ := exists_length_toDigits hpos
  have hpow : (0 : ℚ) < 10 ^ d.exponent := by positivity
  have hle : (10 : ℚ) ^ (order + d.exponent) ≤ d.value := by
    rw [zpow_add₀ (by norm_num), zpow_natCast, value]
    exact mul_le_mul_of_nonneg_right (by exact_mod_cast hle) hpow.le
  have hlt : d.value < (10 : ℚ) ^ ((order + 1 : Nat) + d.exponent) := by
    rw [zpow_add₀ (by norm_num), zpow_natCast, value]
    exact mul_lt_mul_of_pos_right (by exact_mod_cast hlt) hpow
  have hupper := (zpow_lt_zpow_iff_right₀ (by norm_num)).1 (hle.trans_lt hhigh)
  have hlower := (zpow_lt_zpow_iff_right₀ (by norm_num)).1 (hlow.trans hlt)
  rw [horder, Number.powerCeiling]
  omega

end Decimal

namespace Number

/-- The text of a finite number is a literal with its sign; it rounds to the magnitude, or is zero
with it. -/
theorem readLiteral?_toText (negative : Bool) (code : Fin infiniteCode) :
    ∃ l, readLiteral? (Number.finite negative code).toText.units = some l ∧
      (0 < code.val → l.negative = negative ∧ (Decimal.Interval.ofCode code).Holds l.value) ∧
      (code.val = 0 → l.value = 0) := by
  rcases Nat.eq_zero_or_pos code.val with hzero | hpos
  · have htext : (Number.finite negative code).toText = Text.ofString "0" := if_pos hzero
    refine ⟨⟨false, [0x30], [], 0⟩, ?_, fun h => absurd h (by omega), fun _ => ?_⟩
    · rw [htext]
      decide
    · simp [Literal.value, Text.digitsValue]
  · have htext : (Number.finite negative code).toText = Text.ofChars
        ((if negative then ['-'] else []) ++ (Decimal.shortest code.val).toChars) :=
      if_neg (by omega)
    have hholds := Decimal.holds_shortest hpos
    obtain ⟨hlow, hhigh⟩ := Decimal.Interval.range_of_holds hpos code.isLt hholds
    obtain ⟨l, hread, hsign, hvalue⟩ :=
      readLiteral?_toChars negative (Decimal.natAbs_order_lt hlow hhigh)
    refine ⟨l, htext ▸ hread, fun _ => ⟨hsign, ?_⟩, fun h => absurd h (by omega)⟩
    rwa [hvalue]

theorem readLiteral?_nan : readLiteral? Number.nan.toText.units = none := by decide

theorem readLiteral?_infinity (negative : Bool) :
    readLiteral? (Number.infinity negative).toText.units = none := by
  cases negative <;> decide

/-- Finite numbers with one text have one magnitude, and one sign unless they are zero. -/
theorem finite_toText_inj {negative negative' : Bool} {code code' : Fin infiniteCode}
    (h : (Number.finite negative code).toText = (Number.finite negative' code').toText) :
    code = code' ∧ (code.val ≠ 0 → negative = negative') := by
  obtain ⟨l, hread, hpos, hzero⟩ := readLiteral?_toText negative code
  obtain ⟨l', hread', hpos', hzero'⟩ := readLiteral?_toText negative' code'
  rw [h, hread'] at hread
  cases hread
  -- zero does not round to any other magnitude
  have hne {code : Fin infiniteCode} (hpos : 0 < code.val)
      (hholds : (Decimal.Interval.ofCode code).Holds l.value) : l.value ≠ 0 := by
    have hlow := (Decimal.Interval.range_of_holds hpos code.isLt hholds).1
    exact (lt_trans (by positivity) hlow).ne'
  rcases Nat.eq_zero_or_pos code.val with hcode | hcode
  · rcases Nat.eq_zero_or_pos code'.val with hcode' | hcode'
    · exact ⟨Fin.ext (hcode.trans hcode'.symm), fun hnonzero => absurd hcode hnonzero⟩
    · exact absurd (hzero hcode) (hne hcode' (hpos' hcode').2)
  · rcases Nat.eq_zero_or_pos code'.val with hcode' | hcode'
    · exact absurd (hzero' hcode') (hne hcode (hpos hcode).2)
    · obtain ⟨hsign, hholds⟩ := hpos hcode
      obtain ⟨hsign', hholds'⟩ := hpos' hcode'
      exact ⟨Fin.ext (Decimal.Interval.eq_of_holds hholds hholds'),
        fun _ => hsign.symm.trans hsign'⟩

/-- A finite number has no text in common with one that is not. -/
theorem toText_finite_ne {negative : Bool} {code : Fin infiniteCode} {y : Number}
    (hy : readLiteral? y.toText.units = none) :
    (Number.finite negative code).toText ≠ y.toText := by
  intro h
  obtain ⟨l, hread, -⟩ := readLiteral?_toText negative code
  rw [h, hy] at hread
  cases hread

theorem toText_of_isZero {x : Number} (hx : x.isZero = true) : x.toText = Text.ofString "0" := by
  cases x with
  | finite negative code => exact if_pos (by simpa [isZero] using hx)
  | nan | infinity => cases hx

/-- **Two numbers have one text exactly when they are the same up to the sign of zero.** -/
theorem toText_eq_iff {x y : Number} :
    x.toText = y.toText ↔ (Value.number x).sameValueZero (.number y) = true := by
  have hsame : (Value.number x).sameValueZero (.number y) = true ↔
      x = y ∨ x.isZero = true ∧ y.isZero = true := by
    simp [Value.sameValueZero]
  rw [hsame]
  constructor
  · intro h
    cases x with
    | nan =>
      cases y with
      | nan => exact .inl rfl
      | infinity t => cases t <;> exact absurd h (by decide)
      | finite t code => exact absurd h.symm (toText_finite_ne readLiteral?_nan)
    | infinity s =>
      cases y with
      | nan => cases s <;> exact absurd h (by decide)
      | infinity t =>
        left
        revert h
        cases s <;> cases t <;> decide
      | finite t code => exact absurd h.symm (toText_finite_ne (readLiteral?_infinity s))
    | finite s code =>
      cases y with
      | nan => exact absurd h (toText_finite_ne readLiteral?_nan)
      | infinity t => exact absurd h (toText_finite_ne (readLiteral?_infinity t))
      | finite t code' =>
        obtain ⟨rfl, hsign⟩ := finite_toText_inj h
        by_cases hzero : code.val = 0
        · exact .inr (by simp [isZero, hzero])
        · exact .inl (by rw [hsign hzero])
  · rintro (rfl | ⟨hx, hy⟩)
    · rfl
    · rw [toText_of_isZero hx, toText_of_isZero hy]

end Number

end ObjectModel
