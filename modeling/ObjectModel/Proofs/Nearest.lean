import ObjectModel.Proofs.Rounding

/-!
# The nearest code

`nearestCode n d` is nearest to `n / d`: no magnitude is closer, and if another one is equally close,
the code is the even one of the two (`nearest_nearestCode`).

The quotient is rounded on the grid of a power of two.  Magnitudes that are not on the grid are below
the quotient, and so is the least point of the grid with all its digits, which is above them.
-/

namespace ObjectModel.Number

/-- No magnitude is closer to the number, and of two equally close ones the code is even. -/
structure Nearest (code : Nat) (x : ℚ) : Prop where
  le : ∀ other, |magnitude code - x| ≤ |magnitude other - x|
  even : ∀ other, other ≠ code → |magnitude other - x| = |magnitude code - x| → code % 2 = 0

/-! ## Rounding a quotient to a natural number -/

/-- A quotient halfway between two natural numbers goes to the even one. -/
theorem roundHalfEven_even {n d : Nat} (hd : 0 < d)
    (h : |(roundHalfEven n d : ℚ) - n / d| = 1 / 2) : roundHalfEven n d % 2 = 0 := by
  have hd' : (0 : ℚ) < d := by exact_mod_cast hd
  have hquotient : (n : ℚ) / d = (n / d : Nat) + (n % d : Nat) / d := by
    have hdiv : (d : ℚ) * (n / d : Nat) + (n % d : Nat) = n := by
      exact_mod_cast Nat.div_add_mod n d
    field_simp
    linarith
  unfold roundHalfEven at h ⊢
  dsimp only at h ⊢
  split at h
  · next hless =>
    -- less than half of the way to the next number
    have hlt : ((n % d : Nat) : ℚ) / d < 1 / 2 := by
      rw [div_lt_div_iff₀ hd' (by norm_num)]
      exact_mod_cast (by omega : n % d * 2 < 1 * d)
    have hpos : (0 : ℚ) ≤ (n % d : Nat) / d := by positivity
    rw [hquotient, sub_add_cancel_left, abs_neg, abs_of_nonneg hpos] at h
    linarith
  split at h
  · next hmore =>
    have hlt : (1 : ℚ) / 2 < (n % d : Nat) / d := by
      rw [div_lt_div_iff₀ (by norm_num) hd']
      exact_mod_cast (by omega : 1 * d < n % d * 2)
    have hmost : ((n % d : Nat) : ℚ) / d < 1 := by
      rw [div_lt_one hd']
      exact_mod_cast Nat.mod_lt n hd
    have hrest : (((n / d + 1 : Nat) : ℚ)) - n / d = 1 - (n % d : Nat) / d := by
      rw [hquotient]
      push_cast
      ring
    rw [hrest, abs_of_pos (by linarith)] at h
    linarith
  · next hnotless hnotmore =>
    rw [if_neg hnotless, if_neg hnotmore]
    omega

/-- Two whole numbers are at least one apart, by way of any number. -/
theorem one_le_abs_sub_add {j k : Int} (hjk : j ≠ k) (x : ℚ) :
    1 ≤ |(j : ℚ) - x| + |(k : ℚ) - x| := by
  have hone : (1 : ℚ) ≤ |(j : ℚ) - (k : ℚ)| := by
    have hdist : (1 : Int) ≤ |j - k| := Int.one_le_abs (sub_ne_zero.2 hjk)
    exact_mod_cast hdist
  have hvia := abs_sub_le (j : ℚ) x k
  rw [abs_sub_comm x] at hvia
  exact hone.trans hvia

/-- The rounded quotient is as near as any whole number. -/
theorem roundHalfEven_le {n d : Nat} (hd : 0 < d) (k : Int) :
    |(roundHalfEven n d : ℚ) - n / d| ≤ |(k : ℚ) - n / d| := by
  by_cases hk : k = roundHalfEven n d
  · rw [hk]
    simp
  · have hnear := Decimal.roundHalfEven_near (n := n) hd
    have hone := one_le_abs_sub_add hk (n / d)
    rw [Int.cast_natCast] at hone
    linarith

/-- If another whole number is equally near, the rounded quotient is even. -/
theorem roundHalfEven_even_of_tie {n d : Nat} (hd : 0 < d) {k : Int} (hk : k ≠ roundHalfEven n d)
    (h : |(k : ℚ) - n / d| = |(roundHalfEven n d : ℚ) - n / d|) :
    roundHalfEven n d % 2 = 0 := by
  have hnear := Decimal.roundHalfEven_near (n := n) hd
  have hone := one_le_abs_sub_add hk (n / d)
  rw [Int.cast_natCast] at hone
  exact roundHalfEven_even hd (by linarith)

/-! ## The grid of a quotient -/

/-- The binary order of a quotient is the exponent of the greatest power of two in it. -/
theorem binaryOrder_spec {n d : Nat} (hn : n ≠ 0) (hd : 0 < d) :
    (2 : ℚ) ^ binaryOrder n d ≤ n / d ∧ (n : ℚ) / d < 2 ^ (binaryOrder n d + 1) := by
  have hd' : (0 : ℚ) < d := by exact_mod_cast hd
  have hnlow : (2 : ℚ) ^ (n.log2 : Int) ≤ n := by
    rw [zpow_natCast]
    exact_mod_cast Nat.log2_self_le hn
  have hnhigh : (n : ℚ) < 2 ^ ((n.log2 : Int) + 1) := by
    have hlt : n < 2 ^ (n.log2 + 1) := Nat.lt_log2_self
    exact_mod_cast hlt
  have hdlow : (2 : ℚ) ^ (d.log2 : Int) ≤ d := by
    rw [zpow_natCast]
    exact_mod_cast Nat.log2_self_le hd.ne'
  have hdhigh : (d : ℚ) < 2 ^ ((d.log2 : Int) + 1) := by
    have hlt : d < 2 ^ (d.log2 + 1) := Nat.lt_log2_self
    exact_mod_cast hlt
  obtain ⟨reached, hreached, horder⟩ : ∃ reached : Bool,
      (reached = true ↔ (2 : ℚ) ^ ((n.log2 : Int) - d.log2) ≤ n / d) ∧
      binaryOrder n d = if reached then (n.log2 : Int) - d.log2 else n.log2 - d.log2 - 1 := by
    unfold binaryOrder
    dsimp only
    refine ⟨_, ?_, rfl⟩
    rw [le_div_iff₀ hd']
    cases (n.log2 : Int) - (d.log2 : Int) with
    | ofNat k =>
      rw [decide_eq_true_iff, mul_comm, Int.ofNat_eq_natCast, zpow_natCast]
      exact_mod_cast Iff.rfl
    | negSucc k =>
      rw [decide_eq_true_iff, zpow_negSucc, inv_mul_le_iff₀ (by positivity), mul_comm]
      exact_mod_cast Iff.rfl
  have hupper : (n : ℚ) / d < 2 ^ ((n.log2 : Int) - d.log2 + 1) := by
    rw [div_lt_iff₀ hd']
    calc (n : ℚ) < 2 ^ ((n.log2 : Int) + 1) := hnhigh
      _ = 2 ^ ((n.log2 : Int) - d.log2 + 1) * 2 ^ (d.log2 : Int) := by
          rw [← zpow_add₀ two_ne_zero]
          congr 1
          ring
      _ ≤ 2 ^ ((n.log2 : Int) - d.log2 + 1) * d :=
          mul_le_mul_of_nonneg_left hdlow (by positivity)
  have hlower : (2 : ℚ) ^ ((n.log2 : Int) - d.log2 - 1) ≤ n / d := by
    rw [le_div_iff₀ hd']
    calc (2 : ℚ) ^ ((n.log2 : Int) - d.log2 - 1) * d
        ≤ 2 ^ ((n.log2 : Int) - d.log2 - 1) * 2 ^ ((d.log2 : Int) + 1) :=
          mul_le_mul_of_nonneg_left hdhigh.le (by positivity)
      _ = 2 ^ (n.log2 : Int) := by
          rw [← zpow_add₀ two_ne_zero]
          congr 1
          ring
      _ ≤ n := hnlow
  rw [horder]
  split
  · next h => exact ⟨hreached.1 h, hupper⟩
  · next h =>
    refine ⟨hlower, ?_⟩
    rw [sub_add_cancel]
    exact not_le.1 fun hle => h (hreached.2 hle)

/-- A code put together of a step and a number of units has the magnitude of these units.  A full
significand is the first one of the next step. -/
theorem magnitude_grid {k m : Nat} (hm : m ≤ 2 * fractions) (hfull : k = 0 ∨ fractions ≤ m) :
    magnitude (k * fractions + m) = m * 2 ^ ((k : Int) - 1074) := by
  have hdouble (e : Int) : (fractions : ℚ) * 2 ^ (e + 1) = (2 * fractions : Nat) * 2 ^ e := by
    rw [zpow_add_one₀ two_ne_zero]
    push_cast
    ring
  unfold magnitude
  by_cases hlast : m = 2 * fractions
  · have hs : significand (k * fractions + m) = fractions := by
      unfold significand fractions at *
      rw [if_neg (by omega)]
      omega
    have he : exponent (k * fractions + m) = (k : Int) - 1074 + 1 := by
      unfold exponent fractions at *
      rw [if_neg (by omega)]
      omega
    rw [hs, he, hdouble, hlast]
  · have hs : significand (k * fractions + m) = m := by
      unfold significand fractions at *
      split <;> omega
    have he : exponent (k * fractions + m) = (k : Int) - 1074 := by
      unfold exponent fractions at *
      split <;> omega
    rw [hs, he]

/-- A magnitude is on the grid of a power of two, or below all numbers on it that have all their
digits. -/
theorem magnitude_on_grid {e : Int} (he : -1074 ≤ e) (code : Nat) :
    (∃ k : Int, magnitude code = k * 2 ^ e) ∨
      -1074 < e ∧ magnitude code < fractions * 2 ^ e := by
  unfold magnitude
  rcases le_or_gt e (exponent code) with hle | hgt
  · left
    obtain ⟨j, hj⟩ := Int.le.dest hle
    refine ⟨significand code * 2 ^ j, ?_⟩
    rw [← hj, zpow_add₀ two_ne_zero, zpow_natCast]
    push_cast
    ring
  · right
    have hleast : -1074 ≤ exponent code := by
      unfold exponent fractions
      split <;> omega
    refine ⟨by omega, ?_⟩
    have hsignificand : (significand code : ℚ) < 2 * fractions := by
      exact_mod_cast significand_lt code
    calc (significand code : ℚ) * 2 ^ exponent code
        < 2 * fractions * 2 ^ exponent code :=
          mul_lt_mul_of_pos_right hsignificand (by positivity)
      _ = fractions * 2 ^ (exponent code + 1) := by
          rw [zpow_add_one₀ two_ne_zero]
          ring
      _ ≤ fractions * 2 ^ e :=
          mul_le_mul_of_nonneg_left (zpow_le_zpow_right₀ (by norm_num) (by omega)) (by positivity)

theorem magnitude_zero : magnitude 0 = 0 := by
  have hs : significand 0 = 0 := by decide
  rw [magnitude, hs, Nat.cast_zero, zero_mul]

/-! ## The nearest code -/

/-- A number of units that is nearest on its grid is nearest among all magnitudes. -/
theorem nearest_of_grid {k m : Nat} {x y : ℚ} (hx : x = y * 2 ^ ((k : Int) - 1074))
    (hm : m ≤ 2 * fractions) (hfull : k = 0 ∨ fractions ≤ m) (hy : k = 0 ∨ (fractions : ℚ) ≤ y)
    (hnear : ∀ j : Int, |(m : ℚ) - y| ≤ |(j : ℚ) - y|)
    (heven : ∀ j : Int, j ≠ m → |(j : ℚ) - y| = |(m : ℚ) - y| → m % 2 = 0) :
    Nearest (k * fractions + m) x := by
  have hunit : (0 : ℚ) < 2 ^ ((k : Int) - 1074) := by positivity
  have hscale (z : ℚ) : |z * 2 ^ ((k : Int) - 1074) - x| = |z - y| * 2 ^ ((k : Int) - 1074) := by
    rw [hx, ← sub_mul, abs_mul, abs_of_pos hunit]
  have hself := magnitude_grid hm hfull
  have hgrid (other : Nat) := magnitude_on_grid (e := (k : Int) - 1074) (by omega) other
  -- what is not on the grid is farther than the least number with all its digits
  have hbelow {other : Nat} (hpos : -1074 < (k : Int) - 1074)
      (hlt : magnitude other < fractions * 2 ^ ((k : Int) - 1074)) :
      |magnitude (k * fractions + m) - x| < |magnitude other - x| := by
    have hy : (fractions : ℚ) ≤ y := hy.resolve_left (by omega)
    have hleast : (fractions : ℚ) * 2 ^ ((k : Int) - 1074) ≤ x := by
      rw [hx]
      exact mul_le_mul_of_nonneg_right hy hunit.le
    calc |magnitude (k * fractions + m) - x|
        = |(m : ℚ) - y| * 2 ^ ((k : Int) - 1074) := by rw [hself, hscale]
      _ ≤ |((fractions : Int) : ℚ) - y| * 2 ^ ((k : Int) - 1074) :=
          mul_le_mul_of_nonneg_right (hnear _) hunit.le
      _ = |(fractions : ℚ) * 2 ^ ((k : Int) - 1074) - x| := by
          rw [hscale]
          norm_cast
      _ < |magnitude other - x| := by
          rw [abs_of_nonpos (by linarith), abs_of_neg (by linarith)]
          linarith
  constructor
  · intro other
    rcases hgrid other with ⟨j, hj⟩ | ⟨hpos, hlt⟩
    · rw [hself, hj, hscale, hscale]
      exact mul_le_mul_of_nonneg_right (hnear j) hunit.le
    · exact (hbelow hpos hlt).le
  · intro other hne htie
    rcases hgrid other with ⟨j, hj⟩ | ⟨hpos, hlt⟩
    · have hjm : j ≠ m := by
        rintro rfl
        refine hne (magnitude_strictMono.injective ?_)
        rw [hj, hself]
        norm_cast
      rw [hself, hj, hscale, hscale] at htie
      have htwo := heven j hjm (mul_right_cancel₀ hunit.ne' htie)
      unfold fractions
      omega
    · exact absurd htie (hbelow hpos hlt).ne'

/-- **The code made for a quotient is the nearest one.** -/
theorem nearest_nearestCode (n : Nat) {d : Nat} (hd : 0 < d) :
    Nearest (nearestCode n d) (n / d) := by
  have hd' : (0 : ℚ) < d := by exact_mod_cast hd
  by_cases hn : n = 0
  · subst hn
    refine ⟨fun other => ?_, fun _ _ _ => rfl⟩
    rw [show nearestCode 0 d = 0 from rfl, magnitude_zero]
    simp
  · obtain ⟨hlow, hhigh⟩ := binaryOrder_spec hn hd
    -- the step of the grid, and the quotient in units of it
    obtain ⟨k, hk⟩ : ∃ k : Nat, max (binaryOrder n d - 52) (-1074) = (k : Int) - 1074 :=
      ⟨(max (binaryOrder n d - 52) (-1074) + 1074).toNat, by omega⟩
    obtain ⟨p, q, hq, hratio, hcode⟩ : ∃ p q : Nat, 0 < q ∧
        (p : ℚ) / q = n / d / 2 ^ ((k : Int) - 1074) ∧
        nearestCode n d = k * fractions + roundHalfEven p q := by
      have hstep : ((k : Int) - 1074 + 1074).toNat = k := by omega
      unfold nearestCode
      rw [if_neg hn]
      dsimp only
      rw [hk, hstep]
      cases (k : Int) - 1074 with
      | ofNat e =>
        refine ⟨n, d * Nat.pow 2 e, Nat.mul_pos hd (Nat.pow_pos (by decide)), ?_, rfl⟩
        simp [div_div]
      | negSucc e =>
        refine ⟨n * Nat.pow 2 (e + 1), d, hd, ?_, rfl⟩
        simp [zpow_negSucc]
        ring
    have hunit : (0 : ℚ) < 2 ^ ((k : Int) - 1074) := by positivity
    have hdigits : (p : ℚ) / q < 2 * fractions := by
      rw [hratio, div_lt_iff₀ hunit]
      calc (n : ℚ) / d < 2 ^ (binaryOrder n d + 1) := hhigh
        _ ≤ 2 ^ (53 + ((k : Int) - 1074)) := zpow_le_zpow_right₀ (by norm_num) (by omega)
        _ = 2 * fractions * 2 ^ ((k : Int) - 1074) := by
            rw [zpow_add₀ two_ne_zero]
            norm_num [fractions]
    have hleast : k = 0 ∨ (fractions : ℚ) ≤ p / q := by
      rcases Nat.eq_zero_or_pos k with rfl | hpos
      · exact .inl rfl
      · right
        rw [hratio, le_div_iff₀ hunit]
        calc (fractions : ℚ) * 2 ^ ((k : Int) - 1074) = 2 ^ (52 + ((k : Int) - 1074)) := by
              rw [zpow_add₀ two_ne_zero]
              norm_num [fractions]
          _ = 2 ^ binaryOrder n d := by
              congr 1
              omega
          _ ≤ n / d := hlow
    have hnear := Decimal.roundHalfEven_near (n := p) hq
    rw [abs_le] at hnear
    rw [hcode]
    refine nearest_of_grid (y := p / q) ?_ ?_ ?_ hleast (roundHalfEven_le hq)
      fun j hj htie => roundHalfEven_even_of_tie hq hj htie
    · rw [hratio, div_mul_cancel₀ _ hunit.ne']
    · have hlt : (roundHalfEven p q : ℚ) < (2 * fractions + 1 : Nat) := by
        push_cast
        linarith
      exact Nat.le_of_lt_succ (by exact_mod_cast hlt)
    · refine hleast.imp_right fun hle => ?_
      have hlt : (fractions : ℚ) < (roundHalfEven p q + 1 : Nat) := by
        push_cast
        linarith
      exact Nat.le_of_lt_succ (by exact_mod_cast hlt)

end ObjectModel.Number
