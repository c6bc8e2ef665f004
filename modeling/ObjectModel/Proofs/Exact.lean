import Mathlib.Algebra.Group.Nat.Defs
import ObjectModel.Engine.Basic
import ObjectModel.Proofs.Discipline

/-!
# Whole numbers are exact

Up to `2 ^ 53` the code nearest to a natural number stands for the number itself, so a length that
is stored as a number is read back as the same length.
-/

namespace ObjectModel

namespace Number

theorem roundHalfEven_one (n : Nat) : roundHalfEven n 1 = n := by
  simp [roundHalfEven, Nat.mod_one]

theorem binaryOrder_one {n : Nat} (hn : n ≠ 0) : binaryOrder n 1 = n.log2 := by
  have hone : (1 : Nat).log2 = 0 := by decide
  have hlog : (n.log2 : Int) - ((1 : Nat).log2 : Int) = .ofNat n.log2 := by simp [hone]
  have hle : 1 * Nat.pow 2 n.log2 ≤ n := by
    rw [Nat.one_mul]
    exact Nat.log2_self_le hn
  unfold binaryOrder
  simp only [hlog, hle, decide_true, if_true, Int.ofNat_eq_natCast]

theorem floorOfCode_of_exponent {code s : Nat} (h : exponent code = -(s : Int)) :
    floorOfCode code = significand code / 2 ^ s := by
  unfold floorOfCode
  rw [h]
  cases s with
  | zero =>
    show significand code * Nat.pow 2 0 = significand code / 2 ^ 0
    simp
  | succ s => rfl

/-- The code of a number with a full significand `m`, scaled down by `s` binary places. -/
theorem floorOfCode_scaled {m s : Nat} (hlow : fractions ≤ m) (hhigh : m < 2 * fractions)
    (hs : s ≤ 52) : floorOfCode ((1074 - s) * fractions + m) = m / 2 ^ s := by
  have hpos : 0 < fractions := by decide
  obtain ⟨f, rfl⟩ := Nat.exists_eq_add_of_le hlow
  obtain ⟨e, he⟩ : ∃ e, 1074 - s = e := ⟨_, rfl⟩
  have hf : f < fractions := by omega
  have hcode : e * fractions + (fractions + f) = f + (e + 1) * fractions := by
    rw [Nat.succ_mul]
    omega
  have hbig : ¬ f + (e + 1) * fractions < fractions := by
    rw [Nat.succ_mul]
    omega
  have hexponent : exponent (f + (e + 1) * fractions) = -(s : Int) := by
    unfold exponent
    rw [if_neg hbig, Nat.add_mul_div_right _ _ hpos, Nat.div_eq_of_lt hf]
    omega
  have hsignificand : significand (f + (e + 1) * fractions) = fractions + f := by
    unfold significand
    rw [if_neg hbig, Nat.add_mul_mod_self_right, Nat.mod_eq_of_lt hf]
  rw [he, hcode, floorOfCode_of_exponent hexponent, hsignificand]

theorem nearestCode_one {n : Nat} (hn : n ≠ 0) (hmax : n < 2 ^ 53) :
    nearestCode n 1 = (1074 - (52 - n.log2)) * fractions + n * 2 ^ (52 - n.log2) := by
  have hlog : n.log2 ≤ 52 := by
    have := (Nat.log2_lt hn).2 hmax
    omega
  obtain ⟨s, hs⟩ : ∃ s, 52 - n.log2 = s := ⟨_, rfl⟩
  have horder : max (binaryOrder n 1 - 52) (-1074) = -(s : Int) := by
    rw [binaryOrder_one hn]
    omega
  have hsum : (-(s : Int) + 1074).toNat = 1074 - s := by omega
  unfold nearestCode
  simp only [hn, if_false, horder, hs, hsum]
  refine congrArg (fun m => (1074 - s) * fractions + m) ?_
  cases s with
  | zero => simp [roundHalfEven_one]
  | succ s => exact roundHalfEven_one _

theorem floorOfCode_zero : floorOfCode 0 = 0 := by
  obtain ⟨s, hexponent⟩ : ∃ s : Nat, exponent 0 = -(s : Int) := ⟨1074, by decide⟩
  have hsignificand : significand 0 = 0 := by decide
  rw [floorOfCode_of_exponent hexponent, hsignificand, Nat.zero_div]

theorem scaled_lt {n : Nat} (hn : n ≠ 0) (hmax : n < 2 ^ 53) :
    n * 2 ^ (52 - n.log2) < 2 * fractions := by
  have hlog : n.log2 + 1 + (52 - n.log2) = 53 := by
    have := (Nat.log2_lt hn).2 hmax
    omega
  calc n * 2 ^ (52 - n.log2)
      < 2 ^ (n.log2 + 1) * 2 ^ (52 - n.log2) :=
        Nat.mul_lt_mul_of_pos_right Nat.lt_log2_self (Nat.two_pow_pos _)
    _ = 2 ^ 53 := by rw [← Nat.pow_add, hlog]
    _ = 2 * fractions := by decide

theorem le_scaled {n : Nat} (hn : n ≠ 0) (hmax : n < 2 ^ 53) :
    fractions ≤ n * 2 ^ (52 - n.log2) := by
  have hlog : n.log2 + (52 - n.log2) = 52 := by
    have := (Nat.log2_lt hn).2 hmax
    omega
  calc fractions
      = 2 ^ n.log2 * 2 ^ (52 - n.log2) := by rw [← Nat.pow_add, hlog]; decide
    _ ≤ n * 2 ^ (52 - n.log2) := Nat.mul_le_mul_right _ (Nat.log2_self_le hn)

theorem floorOfCode_nearestCode {n : Nat} (hmax : n < 2 ^ 53) :
    floorOfCode (nearestCode n 1) = n := by
  by_cases hn : n = 0
  · subst hn
    exact floorOfCode_zero
  · rw [nearestCode_one hn hmax,
      floorOfCode_scaled (le_scaled hn hmax) (scaled_lt hn hmax) (by omega)]
    exact Nat.mul_div_cancel _ (Nat.two_pow_pos _)

theorem nearestCode_lt_infiniteCode {n : Nat} (hmax : n < 2 ^ 53) :
    nearestCode n 1 < infiniteCode := by
  by_cases hn : n = 0
  · subst hn
    decide
  · have hhigh : n * 2 ^ (52 - n.log2) < 2 * fractions := scaled_lt hn hmax
    rw [nearestCode_one hn hmax]
    have hle : (1074 - (52 - n.log2)) * fractions ≤ 1074 * fractions :=
      Nat.mul_le_mul_right _ (Nat.sub_le _ _)
    have : 1074 * fractions + 2 * fractions < infiniteCode := by decide
    omega

theorem ofNat_eq {n : Nat} (hmax : n < 2 ^ 53) :
    ofNat n = .finite false ⟨nearestCode n 1, nearestCode_lt_infiniteCode hmax⟩ := by
  simp [ofNat, ofRatio, ofCode, nearestCode_lt_infiniteCode hmax]

theorem clampNat_truncate_ofNat {n : Nat} (hmax : n < 2 ^ 53) (limit : Nat) :
    (ofNat n).truncate.clampNat limit = min n limit := by
  have htruncate : (ofNat n).truncate = ofNat n := by
    rw [ofNat_eq hmax]
    simp only [truncate, floorOfCode_nearestCode hmax]
    rw [← ofNat_eq hmax]
    rfl
  rw [htruncate, ofNat_eq hmax]
  simp [clampNat, floorOfCode_nearestCode hmax]

theorem ofNat_inj {n n' : Nat} (hn : n < 2 ^ 53) (hn' : n' < 2 ^ 53) (h : ofNat n = ofNat n') :
    n = n' := by
  have hclamp := clampNat_truncate_ofNat hn (max n n')
  rw [h, clampNat_truncate_ofNat hn'] at hclamp
  omega

theorem eq_zero_of_isZero_ofNat {n : Nat} (hmax : n < 2 ^ 53) (h : (ofNat n).isZero = true) :
    n = 0 := by
  rw [ofNat_eq hmax] at h
  have hcode : nearestCode n 1 = 0 := by simpa [isZero] using h
  rw [← floorOfCode_nearestCode hmax, hcode]
  exact floorOfCode_nearestCode (n := 0) (by decide)

end Number

/-- A length is read back as it was stored. -/
theorem Engine.toLength_ofNat (eng : Engine) {n : Nat} (hn : n ≤ lengthLimit) (m : Machine) :
    eng.toLength (.ofNat n) m = .ok n m := by
  have hmax : n < 2 ^ 53 := by
    have : lengthLimit < 2 ^ 53 := by decide
    omega
  have hnan : (Number.ofNat n == .nan) = false := by
    rw [Number.ofNat_eq hmax]
    rfl
  have hvalue : (if Number.ofNat n == .nan || (Number.ofNat n).isZero then Number.zero
      else (Number.ofNat n).truncate).clampNat lengthLimit = n := by
    rw [hnan, Bool.false_or]
    split
    · next h =>
      rw [Number.eq_zero_of_isZero_ofNat hmax h]
      simp [Number.zero, Number.clampNat, Number.floorOfCode_zero]
    · rw [Number.clampNat_truncate_ofNat hmax]
      exact Nat.min_eq_left hn
  show EStateM.Result.ok _ m = _
  rw [hvalue]

end ObjectModel
