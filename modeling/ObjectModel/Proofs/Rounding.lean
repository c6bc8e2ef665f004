import Mathlib.Algebra.Order.Field.Power
import Mathlib.Tactic.FieldSimp
import Mathlib.Tactic.LinearCombination
import Mathlib.Tactic.Linarith
import Mathlib.Tactic.Positivity
import Mathlib.Tactic.Ring
import ObjectModel.Number.Decimal

/-!
# The shortest decimal tells magnitudes apart

The magnitude with a code is a rational number.  The reals that round to it lie between the
midpoints with its two neighbours, and an end belongs to the one of two neighbours with an even
code, so the intervals of different codes have no point in common.

The shortest decimal of a code lies in the interval of the code: on a grid of seventeen digits or
more the nearest point is closer to the magnitude than either midpoint, so the search ends with a
hit.  Hence the decimal determines the code.
-/

namespace ObjectModel

/-! ## Magnitudes -/

namespace Number

/-- The magnitude with this code. -/
def magnitude (code : Nat) : ℚ := significand code * 2 ^ exponent code

/-- From one code to the next either the significand grows by one, or it is full and starts again
at the next exponent. -/
theorem significand_succ (code : Nat) :
    (significand (code + 1) = significand code + 1 ∧ exponent (code + 1) = exponent code ∧
        ¬ (significand (code + 1) = fractions ∧ fractions < code + 1)) ∨
      (significand (code + 1) = fractions ∧ fractions < code + 1 ∧
        significand code + 1 = 2 * fractions ∧ exponent (code + 1) = exponent code + 1) := by
  unfold significand exponent fractions
  split <;> split <;> omega

theorem significand_lt (code : Nat) : significand code < 2 * fractions := by
  unfold significand fractions
  split <;> omega

theorem significand_pos {code : Nat} (h : 0 < code) : 0 < significand code := by
  unfold significand fractions
  split <;> omega

theorem significand_mod_two (code : Nat) : significand code % 2 = code % 2 := by
  unfold significand fractions
  split <;> omega

theorem magnitude_succ (code : Nat) :
    magnitude (code + 1) = magnitude code + 2 ^ exponent code := by
  unfold magnitude
  rcases significand_succ code with ⟨hs, he, -⟩ | ⟨hs, -, hfull, he⟩
  · rw [hs, he]
    push_cast
    ring
  · have hfull : (significand code : ℚ) + 1 = 2 * fractions := by exact_mod_cast hfull
    rw [hs, he, zpow_add_one₀ two_ne_zero]
    linear_combination (-(2 : ℚ) ^ exponent code) * hfull

theorem exponent_le_succ (code : Nat) : exponent code ≤ exponent (code + 1) := by
  rcases significand_succ code with ⟨-, he, -⟩ | ⟨-, -, -, he⟩ <;> omega

theorem magnitude_strictMono : StrictMono magnitude := by
  refine strictMono_nat_of_lt_succ fun code => ?_
  rw [magnitude_succ]
  exact lt_add_of_pos_right _ (by positivity)

/-- The middle between a magnitude and the next. -/
def midpoint (code : Nat) : ℚ := magnitude code + 2 ^ exponent code / 2

theorem midpoint_strictMono : StrictMono midpoint := by
  refine strictMono_nat_of_lt_succ fun code => ?_
  have hstep : (0 : ℚ) < 2 ^ exponent code := by positivity
  have hnext : (0 : ℚ) < 2 ^ exponent (code + 1) := by positivity
  unfold midpoint
  rw [magnitude_succ]
  linarith

/-- The powers of two that exponents reach are within these powers of ten. -/
theorem two_zpow_range {e : Int} (hlow : -1200 < e) (hhigh : e < 1200) :
    (10 : ℚ) ^ (-400 : Int) < 2 ^ e ∧ (2 : ℚ) ^ e < 10 ^ (400 : Int) := by
  have height : (2 : ℚ) ^ (1200 : Int) = 8 ^ (400 : Int) := by
    rw [show (8 : ℚ) = 2 ^ (3 : Int) by norm_num, ← zpow_mul]
    norm_num
  have hpow : (2 : ℚ) ^ (1200 : Int) ≤ 10 ^ (400 : Int) := by
    rw [height]
    exact zpow_le_zpow_left₀ (by decide) (by norm_num) (by norm_num)
  constructor
  · calc (10 : ℚ) ^ (-400 : Int) ≤ 2 ^ (-1200 : Int) := by
          rw [zpow_neg, zpow_neg]
          exact inv_anti₀ (by positivity) hpow
      _ < 2 ^ e := zpow_lt_zpow_right₀ (by norm_num) hlow
  · exact (zpow_lt_zpow_right₀ (by norm_num) hhigh).trans_le hpow

theorem lt_midpoint (code : Nat) : (10 : ℚ) ^ (-400 : Int) < midpoint code := by
  have hs : significand 0 = 0 := by decide
  have hzero : midpoint 0 = 2 ^ (exponent 0 - 1) := by
    rw [midpoint, magnitude, hs, Nat.cast_zero, zero_mul, zero_add, zpow_sub_one₀ two_ne_zero,
      div_eq_mul_inv]
  calc (10 : ℚ) ^ (-400 : Int) < midpoint 0 := by
        rw [hzero]
        exact (two_zpow_range (by decide) (by decide)).1
    _ ≤ midpoint code := midpoint_strictMono.monotone (Nat.zero_le code)

theorem magnitude_lt {code : Nat} (h : code ≤ infiniteCode) :
    magnitude code < 10 ^ (400 : Int) := by
  have hs : significand infiniteCode = 2 ^ 52 := by decide
  have htop : magnitude infiniteCode = 2 ^ (52 + exponent infiniteCode) := by
    rw [magnitude, hs, Nat.cast_pow, Nat.cast_ofNat, zpow_add₀ two_ne_zero]
    norm_cast
  calc magnitude code ≤ magnitude infiniteCode := magnitude_strictMono.monotone h
    _ < 10 ^ (400 : Int) := by
        rw [htop]
        exact (two_zpow_range (by decide) (by decide)).2

theorem midpoint_lt (code : Nat) : midpoint code < magnitude (code + 1) := by
  have hstep : (0 : ℚ) < 2 ^ exponent code := by positivity
  rw [magnitude_succ, midpoint]
  linarith

/-- A magnitude has no more than fifty-three binary digits before its last one. -/
theorem magnitude_succ_le (code : Nat) : magnitude (code + 1) ≤ 2 ^ 53 * 2 ^ exponent code := by
  have hlt : (significand code : ℚ) + 1 ≤ 2 ^ 53 := by
    have hlt : significand code + 1 ≤ 2 ^ 53 := significand_lt code
    exact_mod_cast hlt
  have hstep : (0 : ℚ) ≤ 2 ^ exponent code := by positivity
  have hle := mul_le_mul_of_nonneg_right hlt hstep
  rw [magnitude_succ, magnitude]
  linarith

end Number

/-! ## Intervals -/

namespace Decimal

/-- The number that a decimal stands for. -/
def value (d : Decimal) : ℚ := d.coefficient * 10 ^ d.exponent

namespace Interval

variable {i : Interval}

def lower (i : Interval) : ℚ := i.low / i.scale

def center (i : Interval) : ℚ := i.value / i.scale

def upper (i : Interval) : ℚ := i.high / i.scale

/-- The point lies in the interval. -/
def Holds (i : Interval) (x : ℚ) : Prop :=
  if i.closed then i.lower ≤ x ∧ x ≤ i.upper else i.lower < x ∧ x < i.upper

theorem Holds.le {x : ℚ} (h : i.Holds x) : i.lower ≤ x ∧ x ≤ i.upper := by
  unfold Holds at h
  split at h
  · exact h
  · exact ⟨h.1.le, h.2.le⟩

theorem Holds.closed {x : ℚ} (h : i.Holds x) (hend : x = i.lower ∨ x = i.upper) :
    i.closed = true := by
  unfold Holds at h
  split at h
  · assumption
  · rcases hend with rfl | rfl
    · exact absurd h.1 (lt_irrefl _)
    · exact absurd h.2 (lt_irrefl _)

theorem holds_of_lt {x : ℚ} (hlow : i.lower < x) (hhigh : x < i.upper) : i.Holds x := by
  unfold Holds
  split
  · exact ⟨hlow.le, hhigh.le⟩
  · exact ⟨hlow, hhigh⟩

/-- The test of a grid point is made on whole numbers. -/
theorem contains_iff (hscale : 0 < i.scale) (c : Nat) (k : Int) :
    i.contains c k = true ↔ i.Holds ((Decimal.mk c k).value) := by
  -- the point and the unit of the test
  obtain ⟨point, unit, hunit, hvalue, htest⟩ : ∃ point unit : Nat, 0 < unit ∧
      (point : ℚ) = (Decimal.mk c k).value * i.scale * unit ∧ i.contains c k =
        if i.closed then decide (i.low * unit ≤ point) && decide (point ≤ i.high * unit)
        else decide (i.low * unit < point) && decide (point < i.high * unit) := by
    cases k with
    | ofNat k =>
      refine ⟨c * i.scale * Nat.pow 10 k, 1, Nat.one_pos, ?_, rfl⟩
      simp [Decimal.value]
      ring
    | negSucc k =>
      refine ⟨c * i.scale, Nat.pow 10 (k + 1), Nat.pow_pos (by decide), ?_, rfl⟩
      simp [Decimal.value, zpow_negSucc]
      field_simp
  have hscale : (0 : ℚ) < i.scale := by exact_mod_cast hscale
  have hunit : (0 : ℚ) < unit := by exact_mod_cast hunit
  have hpos := mul_pos hscale hunit
  have hle (n : Nat) : n * unit ≤ point ↔ (n : ℚ) / i.scale ≤ (Decimal.mk c k).value := by
    rw [div_le_iff₀ hscale, ← mul_le_mul_iff_left₀ hunit, ← hvalue]
    exact_mod_cast Iff.rfl
  have hge (n : Nat) : point ≤ n * unit ↔ (Decimal.mk c k).value ≤ (n : ℚ) / i.scale := by
    rw [le_div_iff₀ hscale, ← mul_le_mul_iff_left₀ hunit, ← hvalue]
    exact_mod_cast Iff.rfl
  rw [htest, Holds, lower, upper]
  split
  · rw [Bool.and_eq_true, decide_eq_true_iff, decide_eq_true_iff, hle, hge]
  · rw [Bool.and_eq_true, decide_eq_true_iff, decide_eq_true_iff, ← not_le, ← not_le, hle, hge,
      not_le, not_le]

/-! ### The interval of a code -/

/-- The scale of the interval and the unit of its whole numbers. -/
theorem ofCode_eq (code : Nat) :
    ∃ up down : Nat, 0 < up ∧ 0 < down ∧ (up : ℚ) / down = 2 ^ Number.exponent code ∧
      Interval.ofCode code =
        { low := (4 * Number.significand code -
            if Number.significand code == Number.fractions && Number.fractions < code then 1
            else 2) * up
          value := 4 * Number.significand code * up
          high := (4 * Number.significand code + 2) * up
          scale := 4 * down
          closed := Number.significand code % 2 == 0 } := by
  unfold Interval.ofCode
  cases Number.exponent code with
  | ofNat e => exact ⟨Nat.pow 2 e, 1, Nat.pow_pos (by decide), Nat.one_pos, by simp, rfl⟩
  | negSucc e =>
    refine ⟨1, Nat.pow 2 (e + 1), Nat.one_pos, Nat.pow_pos (by decide), ?_, rfl⟩
    simp [zpow_negSucc]

theorem scale_ofCode_pos (code : Nat) : 0 < (ofCode code).scale := by
  obtain ⟨up, down, -, hdown, -, heq⟩ := ofCode_eq code
  rw [heq]
  exact Nat.mul_pos (by decide) hdown

theorem closed_ofCode (code : Nat) : (ofCode code).closed = (code % 2 == 0) := by
  obtain ⟨up, down, -, -, -, heq⟩ := ofCode_eq code
  rw [heq, Number.significand_mod_two]

theorem center_ofCode (code : Nat) : (ofCode code).center = Number.magnitude code := by
  obtain ⟨up, down, -, hdown, hunit, heq⟩ := ofCode_eq code
  have hdown : (down : ℚ) ≠ 0 := by exact_mod_cast hdown.ne'
  rw [center, heq, Number.magnitude, ← hunit]
  push_cast
  field_simp

theorem upper_ofCode (code : Nat) : (ofCode code).upper = Number.midpoint code := by
  obtain ⟨up, down, -, hdown, hunit, heq⟩ := ofCode_eq code
  have hdown : (down : ℚ) ≠ 0 := by exact_mod_cast hdown.ne'
  rw [upper, heq, Number.midpoint, Number.magnitude, ← hunit]
  push_cast
  field_simp
  ring

/-- An interval starts where the one of the code before ends. -/
theorem lower_ofCode_succ (code : Nat) :
    (ofCode (code + 1)).lower = Number.midpoint code := by
  obtain ⟨up, down, -, hdown, hunit, heq⟩ := ofCode_eq (code + 1)
  have hdown : (down : ℚ) ≠ 0 := by exact_mod_cast hdown.ne'
  have hlower {below : Nat} (hbelow : below ≤ 2) :
      (((4 * Number.significand (code + 1) - below) * up : Nat) : ℚ) / ((4 * down : Nat) : ℚ) =
        Number.magnitude (code + 1) - below / 4 * 2 ^ Number.exponent (code + 1) := by
    have hpos : 0 < Number.significand (code + 1) := Number.significand_pos (Nat.succ_pos code)
    rw [Number.magnitude, ← hunit, Nat.cast_mul, Nat.cast_sub (by omega)]
    push_cast
    field_simp
  rw [lower, heq, Number.midpoint]
  dsimp only
  rcases Number.significand_succ code with ⟨-, he, hplain⟩ | ⟨hs, hlt, -, he⟩
  · rw [if_neg (by simpa using hplain), hlower (by decide), Number.magnitude_succ, he]
    push_cast
    ring
  · rw [if_pos (by simp [hs, hlt]), hlower (by decide), Number.magnitude_succ, he,
      zpow_add_one₀ two_ne_zero]
    push_cast
    ring

/-- No point rounds to two magnitudes: at most the end of an interval is the start of the next,
and then one of the two codes is odd. -/
theorem not_holds_of_lt {a b : Nat} (hab : a < b) {x : ℚ} (ha : (ofCode a).Holds x) :
    ¬ (ofCode b).Holds x := by
  intro hb
  obtain ⟨c, rfl⟩ : ∃ c, b = c + 1 := ⟨b - 1, by omega⟩
  have hupper := ha.le.2
  have hlower := hb.le.1
  rw [upper_ofCode] at hupper
  rw [lower_ofCode_succ] at hlower
  have hle := Number.midpoint_strictMono.le_iff_le.1 (hlower.trans hupper)
  obtain rfl : a = c := by omega
  have hx := le_antisymm hupper hlower
  have hclosed := ha.closed (.inr (hx.trans (upper_ofCode a).symm))
  have hclosed' := hb.closed (.inl (hx.trans (lower_ofCode_succ a).symm))
  rw [closed_ofCode, beq_iff_eq] at hclosed hclosed'
  omega

theorem eq_of_holds {a b : Nat} {x : ℚ} (ha : (ofCode a).Holds x) (hb : (ofCode b).Holds x) :
    a = b := by
  rcases Nat.lt_trichotomy a b with hlt | heq | hgt
  · exact absurd hb (not_holds_of_lt hlt ha)
  · exact heq
  · exact absurd ha (not_holds_of_lt hgt hb)

/-- What rounds to a finite magnitude other than zero is neither very small nor very great. -/
theorem range_of_holds {code : Nat} (hpos : 0 < code) (hfinite : code < infiniteCode) {x : ℚ}
    (h : (ofCode code).Holds x) : (10 : ℚ) ^ (-400 : Int) < x ∧ x < 10 ^ (400 : Int) := by
  obtain ⟨c, rfl⟩ : ∃ c, code = c + 1 := ⟨code - 1, by omega⟩
  obtain ⟨hlow, hhigh⟩ := h.le
  rw [lower_ofCode_succ] at hlow
  rw [upper_ofCode] at hhigh
  refine ⟨(Number.lt_midpoint c).trans_le hlow, hhigh.trans_lt ?_⟩
  exact (Number.midpoint_lt (c + 1)).trans (Number.magnitude_lt hfinite)

end Interval

/-! ## The search -/

theorem roundHalfEven_near {n d : Nat} (hd : 0 < d) :
    |(Number.roundHalfEven n d : ℚ) - n / d| ≤ 1 / 2 := by
  have hbounds : 2 * (d * Number.roundHalfEven n d) ≤ 2 * n + d ∧
      2 * n ≤ 2 * (d * Number.roundHalfEven n d) + d := by
    have hdiv := Nat.div_add_mod n d
    have hmod := Nat.mod_lt n hd
    have heven : d * (n / d + n / d % 2) = d * (n / d) + d * (n / d % 2) := Nat.mul_add _ _ _
    have hsucc : d * (n / d + 1) = d * (n / d) + d := Nat.mul_succ _ _
    unfold Number.roundHalfEven
    dsimp only
    split
    · omega
    split
    · omega
    · rcases Nat.mod_two_eq_zero_or_one (n / d) with h | h <;> rw [h] at heven ⊢ <;> omega
  have hd : (0 : ℚ) < d := by exact_mod_cast hd
  obtain ⟨hhigh, hlow⟩ := hbounds
  have hhigh : (2 : ℚ) * (d * Number.roundHalfEven n d) ≤ 2 * n + d := by exact_mod_cast hhigh
  have hlow : (2 : ℚ) * n ≤ 2 * (d * Number.roundHalfEven n d) + d := by exact_mod_cast hlow
  have hcancel : (d : ℚ) * (n / d) = n := mul_div_cancel₀ _ hd.ne'
  rw [abs_le]
  constructor <;> refine le_of_mul_le_mul_left ?_ hd <;> rw [mul_sub, hcancel] <;> linarith

namespace Interval

variable {i : Interval}

/-- The candidates on a grid are the nearest point and one on the other side of the value. -/
theorem nearest?_eq (hscale : 0 < i.scale) (k : Int) :
    ∃ n d farther : Nat, 0 < d ∧ (n : ℚ) / d = i.center / 10 ^ k ∧ i.nearest? k =
      if i.contains (Number.roundHalfEven n d) k then some ⟨Number.roundHalfEven n d, k⟩
      else if i.contains farther k then some ⟨farther, k⟩ else none := by
  cases k with
  | ofNat k =>
    refine ⟨i.value, i.scale * Nat.pow 10 k, _, Nat.mul_pos hscale (Nat.pow_pos (by decide)), ?_,
      rfl⟩
    simp [center, div_div]
  | negSucc k =>
    refine ⟨i.value * Nat.pow 10 (k + 1), i.scale, _, hscale, ?_, rfl⟩
    simp [center, zpow_negSucc]
    ring

/-- A hit lies in the interval. -/
theorem contains_of_nearest? (hscale : 0 < i.scale) {k : Int} {d : Decimal}
    (h : i.nearest? k = some d) : i.contains d.coefficient d.exponent = true := by
  obtain ⟨n, d', farther, -, -, heq⟩ := nearest?_eq hscale k
  rw [heq] at h
  split at h
  · next hnearer =>
    cases h
    exact hnearer
  split at h
  · next hfarther =>
    cases h
    exact hfarther
  · cases h

/-- A grid that is finer than the interval has a point in it. -/
theorem nearest?_isSome (hscale : 0 < i.scale) {k : Int} (hlow : i.lower < i.center - 10 ^ k / 2)
    (hhigh : i.center + 10 ^ k / 2 < i.upper) : (i.nearest? k).isSome = true := by
  obtain ⟨n, d, farther, hd, hratio, heq⟩ := nearest?_eq hscale k
  have hpow : (0 : ℚ) < 10 ^ k := by positivity
  have hcenter : i.center / 10 ^ k * 10 ^ k = i.center := div_mul_cancel₀ _ hpow.ne'
  have hnear : |(Number.roundHalfEven n d : ℚ) - n / d| ≤ 1 / 2 := roundHalfEven_near hd
  rw [hratio, abs_le] at hnear
  have hholds : i.Holds (Decimal.mk (Number.roundHalfEven n d) k).value := by
    have hleft := mul_le_mul_of_nonneg_right hnear.1 hpow.le
    have hright := mul_le_mul_of_nonneg_right hnear.2 hpow.le
    rw [sub_mul, hcenter] at hleft hright
    refine holds_of_lt ?_ ?_ <;> simp only [Decimal.value] <;> linarith
  rw [heq, if_pos ((contains_iff hscale _ _).2 hholds)]
  rfl

/-- The search ends with a hit if there is one on its grids. -/
theorem contains_search (hscale : 0 < i.scale) {steps : Nat} {k : Int}
    (h : ∃ j ≤ steps, (i.nearest? (k - j)).isSome = true) :
    i.contains (i.search steps k).coefficient (i.search steps k).exponent = true := by
  induction steps generalizing k with
  | zero =>
    obtain ⟨j, hj, hhit⟩ := h
    obtain rfl : j = 0 := by omega
    obtain ⟨d, hd⟩ := Option.isSome_iff_exists.1 hhit
    have hd : i.nearest? k = some d := by simpa using hd
    simp only [search, hd, Option.getD_some]
    exact contains_of_nearest? hscale hd
  | succ steps ih =>
    unfold search
    split
    · next d hd => exact contains_of_nearest? hscale hd
    · next hmiss =>
      refine ih ?_
      obtain ⟨j, hj, hhit⟩ := h
      cases j with
      | zero => simp [hmiss] at hhit
      | succ j =>
        refine ⟨j, by omega, ?_⟩
        have hgrid : k - 1 - (j : Int) = k - ((j + 1 : Nat) : Int) := by omega
        rwa [hgrid]

end Interval

/-! ## The order of a number -/

theorem le_mul_pow_decimalPlaces {n d fuel : Nat} (h : d ≤ n * 10 ^ fuel) :
    d ≤ n * 10 ^ decimalPlaces n d fuel := by
  induction fuel generalizing n with
  | zero => exact h
  | succ fuel ih =>
    unfold decimalPlaces
    split
    · simpa
    · rw [Nat.pow_add, Nat.pow_one, ← Nat.mul_assoc]
      refine ih ?_
      rwa [Nat.mul_assoc, ← Nat.pow_succ']

/-- A number has one digit more than its order. -/
theorem exists_length_toDigits {n : Nat} (hn : 0 < n) :
    ∃ order, (Nat.toDigits 10 n).length = order + 1 ∧ 10 ^ order ≤ n ∧ n < 10 ^ (order + 1) := by
  obtain ⟨order, horder⟩ : ∃ order, (Nat.toDigits 10 n).length = order + 1 :=
    Nat.exists_eq_add_one.2 Nat.length_toDigits_pos
  refine ⟨order, horder, ?_, ?_⟩
  · rcases Nat.eq_zero_or_pos order with rfl | hpos
    · exact hn
    · by_contra hlt
      have hle := (Nat.length_toDigits_le_iff (by decide) hpos).2 (Nat.lt_of_not_le hlt)
      omega
  · exact (Nat.length_toDigits_le_iff (by decide) (Nat.succ_pos order)).1 (Nat.le_of_eq horder)

theorem pow_decimalOrder_le {n d : Nat} (hd : 0 < d) (h : (10 : ℚ) ^ (-400 : Int) ≤ n / d) :
    (10 : ℚ) ^ decimalOrder n d ≤ n / d := by
  have hd' : (0 : ℚ) < d := by exact_mod_cast hd
  rw [le_div_iff₀ hd'] at h ⊢
  unfold decimalOrder
  split
  · next hle =>
    obtain ⟨order, horder, hpow, -⟩ := exists_length_toDigits (Nat.div_pos hle hd)
    have hcast : ((order + 1 : Nat) : Int) - 1 = order := by omega
    rw [horder, hcast, zpow_natCast]
    exact_mod_cast (Nat.le_div_iff_mul_le hd).1 hpow
  · have hwithin : d ≤ n * 10 ^ 400 := by
      rw [zpow_neg, inv_mul_le_iff₀ (by positivity), mul_comm] at h
      exact_mod_cast h
    have hplaces : (d : ℚ) ≤ n * 10 ^ decimalPlaces n d 400 := by
      exact_mod_cast le_mul_pow_decimalPlaces hwithin
    rw [zpow_neg, zpow_natCast, inv_mul_le_iff₀ (by positivity)]
    linarith

/-! ## The shortest decimal -/

theorem value_strip (d : Decimal) : d.strip.value = d.value := by
  fun_induction strip d with
  | case1 d h ih =>
    have hdiv : (d.coefficient : ℚ) = 10 * (d.coefficient / 10 : Nat) := by
      have := Nat.div_add_mod d.coefficient 10
      rw [h.2] at this
      exact_mod_cast this.symm
    rw [ih, value, value, hdiv, zpow_add_one₀ (by norm_num)]
    ring
  | case2 d h => rfl

/-- Seventeen digits are enough for an interval that reaches far enough to both sides. -/
theorem Interval.holds_search {i : Interval} (hscale : 0 < i.scale)
    (hrange : (10 : ℚ) ^ (-400 : Int) ≤ i.center)
    (hlow : i.lower ≤ i.center - i.center / 2 ^ 54)
    (hhigh : i.center + i.center / 2 ^ 54 ≤ i.upper) :
    i.Holds (i.search 17 (decimalOrder i.value i.scale)).value := by
  have horder : (10 : ℚ) ^ decimalOrder i.value i.scale ≤ i.center :=
    pow_decimalOrder_le hscale hrange
  have hpos : 0 < i.center := lt_of_lt_of_le (by positivity) hrange
  have hgrid : (10 : ℚ) ^ (decimalOrder i.value i.scale - (17 : Nat)) / 2 < i.center / 2 ^ 54 := by
    rw [zpow_sub₀ (by norm_num), zpow_natCast, div_div, div_lt_div_iff₀ (by norm_num) (by norm_num)]
    calc (10 : ℚ) ^ decimalOrder i.value i.scale * 2 ^ 54 ≤ i.center * 2 ^ 54 :=
          mul_le_mul_of_nonneg_right horder (by norm_num)
      _ < i.center * (10 ^ 17 * 2) := mul_lt_mul_of_pos_left (by norm_num) hpos
  refine (contains_iff hscale _ _).1 (contains_search hscale ⟨17, le_rfl, ?_⟩)
  refine nearest?_isSome hscale ?_ ?_
  · exact lt_of_le_of_lt hlow (by linarith)
  · exact lt_of_lt_of_le (by linarith) hhigh

/-- **The shortest decimal of a code rounds to it.** -/
theorem holds_shortest {code : Nat} (hpos : 0 < code) :
    (Interval.ofCode code).Holds (shortest code).value := by
  obtain ⟨c, rfl⟩ : ∃ c, code = c + 1 := ⟨code - 1, by omega⟩
  have hcenter := Interval.center_ofCode (c + 1)
  have hlow := Interval.lower_ofCode_succ c
  have hhigh := Interval.upper_ofCode (c + 1)
  -- both midpoints are at least half a step of the code before away
  have hstep := Number.magnitude_succ c
  have hmost := Number.magnitude_succ_le c
  have hmono : (2 : ℚ) ^ Number.exponent c ≤ 2 ^ Number.exponent (c + 1) :=
    zpow_le_zpow_right₀ (by norm_num) (Number.exponent_le_succ c)
  rw [shortest, value_strip]
  refine Interval.holds_search (Interval.scale_ofCode_pos _) ?_ ?_ ?_
  · rw [hcenter]
    exact ((Number.lt_midpoint c).trans (Number.midpoint_lt c)).le
  · rw [hcenter, hlow, Number.midpoint]
    linarith
  · rw [hcenter, hhigh, Number.midpoint]
    linarith

end Decimal

end ObjectModel
