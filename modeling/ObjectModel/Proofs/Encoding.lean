import ObjectModel.Text.Wtf8

/-!
# Encoded texts and their units

Joining surrogates keeps the units (`flatMap_units_attach`), and code points without a pair of
surrogates are what their units are joined to (`foldr_attach_flatMap_units`).  So encoded texts and
sequences of units correspond one to one:

    (ofUnits us).units = us          (units_ofUnits)
    ofUnits w.units = w              (ofUnits_units)

and an encoded text is known by its units (`units_inj`), however it was made.  Putting texts
together puts their units together (`units_push`, `units_concat`), also where two halves of a pair
meet and their bytes become those of the pair (`points_push_of_halves`).
-/

namespace ObjectModel

namespace CodePoint

/-! ## Units of code points -/

theorem units_of_lt {p : Nat} (hp : p < 0x10000) : units p = [UInt16.ofNat p] := if_pos hp

theorem units_ofPair {p q : Nat} (hp : isHighSurrogate p = true) (hq : isLowSurrogate q = true) :
    units (ofPair p q) = [UInt16.ofNat p, UInt16.ofNat q] := by
  have hge := (ofPair_bounds hp hq).1
  simp only [isHighSurrogate, isLowSurrogate, Bool.and_eq_true, decide_eq_true_eq] at hp hq
  unfold units
  rw [if_neg (Nat.not_lt.2 hge)]
  unfold ofPair
  have hhigh : 0xD800 + (0x10000 + (p - 0xD800) * 0x400 + (q - 0xDC00) - 0x10000) / 0x400 = p := by
    omega
  have hlow : 0xDC00 + (0x10000 + (p - 0xD800) * 0x400 + (q - 0xDC00) - 0x10000) % 0x400 = q := by
    omega
  simp only [hhigh, hlow]

theorem isLowSurrogate_eq_false {p : Nat} (hp : 0x10000 ≤ p) : isLowSurrogate p = false := by
  simp only [isLowSurrogate, Bool.and_eq_false_iff, decide_eq_false_iff_not]
  omega

/-- **A joined pair has the units of its halves.** -/
theorem flatMap_units_attach (p : Nat) (ps : List Nat) :
    (attach p ps).flatMap units = units p ++ ps.flatMap units := by
  cases ps with
  | nil => simp [attach]
  | cons q rest =>
    simp only [attach]
    split
    · next hpair =>
      obtain ⟨hhigh, hlow⟩ := Bool.and_eq_true_iff.1 hpair
      rw [List.flatMap_cons, List.flatMap_cons, units_ofPair hhigh hlow]
      simp only [isHighSurrogate, isLowSurrogate, Bool.and_eq_true, decide_eq_true_eq] at hhigh hlow
      rw [units_of_lt (by omega), units_of_lt (by omega)]
      rfl
    · simp

theorem flatMap_units_foldr (ps qs : List Nat) :
    (ps.foldr attach qs).flatMap units = ps.flatMap units ++ qs.flatMap units := by
  induction ps with
  | nil => rfl
  | cons p ps ih =>
    rw [List.foldr_cons, flatMap_units_attach, ih, List.flatMap_cons, List.append_assoc]

theorem flatMap_units_toNat (us : List UInt16) : (us.map UInt16.toNat).flatMap units = us := by
  induction us with
  | nil => rfl
  | cons u us ih =>
    rw [List.map_cons, List.flatMap_cons, ih, units_of_lt u.toNat_lt, UInt16.ofNat_toNat]
    rfl

/-! ## Code points of units -/

theorem attach_of_separated {p : Nat} {ps : List Nat} (h : Separated (p :: ps)) :
    attach p ps = p :: ps := by
  cases ps with
  | nil => rfl
  | cons q rest =>
    simp only [attach]
    split
    · next hpair =>
      obtain ⟨hhigh, hlow⟩ := Bool.and_eq_true_iff.1 hpair
      rw [h.2.1 hhigh q rfl] at hlow
      cases hlow
    · rfl

/-- Code points come before others unchanged where no pair is left. -/
theorem foldr_attach_of_separated {ps qs : List Nat} (h : Separated (ps ++ qs)) :
    ps.foldr attach qs = ps ++ qs := by
  induction ps with
  | nil => rfl
  | cons p ps ih =>
    rw [List.foldr_cons, ih h.2.2]
    exact attach_of_separated h

/-- Sequences without pairs have none together if none is at their seam. -/
theorem Separated.append {ps qs : List Nat} (hps : Separated ps) (hqs : Separated qs)
    (h : ∀ p ∈ ps.getLast?, isHighSurrogate p = true → ∀ q ∈ qs.head?, isLowSurrogate q = false) :
    Separated (ps ++ qs) := by
  induction ps with
  | nil => exact hqs
  | cons p ps ih =>
    cases ps with
    | nil => exact ⟨hps.1, h p rfl, hqs⟩
    | cons p' ps => exact ⟨hps.1, hps.2.1, ih hps.2.2 h⟩

theorem Separated.of_append {ps qs : List Nat} (h : Separated (ps ++ qs)) : Separated ps := by
  induction ps with
  | nil => trivial
  | cons p ps ih =>
    refine ⟨h.1, ?_, ih h.2.2⟩
    cases ps with
    | nil => intro _ q hq; cases hq
    | cons p' ps => exact h.2.1

theorem toNat_unit {n : Nat} (hn : n < 0x10000) : (UInt16.ofNat n).toNat = n :=
  UInt16.toNat_ofNat_of_lt' hn

/-- The units of a code point are joined to it. -/
theorem foldr_attach_units {p : Nat} {ps : List Nat} (h : Separated (p :: ps)) :
    ((units p).map UInt16.toNat).foldr attach ps = p :: ps := by
  have hp : p < 0x110000 := h.1
  by_cases hsmall : p < 0x10000
  · rw [units_of_lt hsmall]
    simp only [List.map_cons, List.map_nil, List.foldr_cons, List.foldr_nil, toNat_unit hsmall]
    exact attach_of_separated h
  · -- the low half is no high surrogate, so it joins nothing behind it
    have hhigh : 0xD800 + (p - 0x10000) / 0x400 < 0x10000 := by omega
    have hlow : 0xDC00 + (p - 0x10000) % 0x400 < 0x10000 := by omega
    have hlone : Separated ((0xDC00 + (p - 0x10000) % 0x400) :: ps) := by
      refine ⟨by unfold limit; omega, fun hsurrogate => ?_, h.2.2⟩
      simp only [isHighSurrogate, Bool.and_eq_true, decide_eq_true_eq] at hsurrogate
      omega
    have hpair : isHighSurrogate (0xD800 + (p - 0x10000) / 0x400) = true ∧
        isLowSurrogate (0xDC00 + (p - 0x10000) % 0x400) = true := by
      simp only [isHighSurrogate, isLowSurrogate, Bool.and_eq_true, decide_eq_true_eq]
      omega
    have hof : ofPair (0xD800 + (p - 0x10000) / 0x400) (0xDC00 + (p - 0x10000) % 0x400) = p := by
      unfold ofPair
      omega
    unfold units
    rw [if_neg hsmall]
    simp only [List.map_cons, List.map_nil, List.foldr_cons, List.foldr_nil, toNat_unit hhigh,
      toNat_unit hlow]
    rw [attach_of_separated hlone]
    simp only [attach, hpair, hof, Bool.and_self, if_true]

/-- **Code points without a pair of surrogates are given back by their units.** -/
theorem foldr_attach_flatMap_units {ps : List Nat} (h : Separated ps) :
    ((ps.flatMap units).map UInt16.toNat).foldr attach [] = ps := by
  induction ps with
  | nil => rfl
  | cons p ps ih =>
    rw [List.flatMap_cons, List.map_append, List.foldr_append, ih h.2.2]
    exact foldr_attach_units h

end CodePoint

namespace Wtf8

/-! ## Encoded texts -/

theorem units_ofPoints {ps : List Nat} (h : CodePoint.Separated ps) :
    (ofPoints ps h).units = ps.flatMap CodePoint.units := by
  rw [units, points_ofPoints]

theorem ofPoints_congr {ps qs : List Nat} (hps : CodePoint.Separated ps)
    (hqs : CodePoint.Separated qs) (h : ps = qs) : ofPoints ps hps = ofPoints qs hqs := by
  subst h
  rfl

/-- **Units survive the encoding**, lone surrogates included. -/
@[simp]
theorem units_ofUnits (us : List UInt16) : (ofUnits us).units = us := by
  rw [ofUnits, units_ofPoints, CodePoint.flatMap_units_foldr, CodePoint.flatMap_units_toNat]
  exact List.append_nil us

/-- **An encoded text is the encoding of its units.** -/
theorem ofUnits_units (w : Wtf8) : ofUnits w.units = w := by
  obtain ⟨ps, hps, rfl⟩ := w.exists_eq_ofPoints
  rw [units_ofPoints]
  exact ofPoints_congr _ _ (CodePoint.foldr_attach_flatMap_units hps)

theorem units_inj {v w : Wtf8} : v.units = w.units ↔ v = w := by
  constructor
  · intro h
    rw [← ofUnits_units v, h, ofUnits_units]
  · intro h
    rw [h]

@[simp]
theorem units_empty : empty.units = [] := rfl

@[simp]
theorem units_push (v w : Wtf8) : (v.push w).units = v.units ++ w.units := by
  rw [push, units_ofPoints, CodePoint.flatMap_units_foldr]
  rfl

/-! ### Seams -/

/-- Where no two halves meet the bytes are put together as they are. -/
theorem bytes_push_of_apart {v w : Wtf8}
    (h : ∀ p ∈ v.points.getLast?, CodePoint.isHighSurrogate p = true →
      ∀ q ∈ w.points.head?, CodePoint.isLowSurrogate q = false) :
    (v.push w).bytes = v.bytes ++ w.bytes := by
  have hseparated := v.separated_points.append w.separated_points h
  have hbytes (w : Wtf8) : w.bytes = (w.points.flatMap CodePoint.bytes).toArray := by
    obtain ⟨ps, hps, rfl⟩ := w.exists_eq_ofPoints
    rw [points_ofPoints]
    rfl
  show ((v.points.foldr CodePoint.attach w.points).flatMap CodePoint.bytes).toArray = _
  rw [CodePoint.foldr_attach_of_separated hseparated, List.flatMap_append, hbytes v, hbytes w,
    List.append_toArray]

/-- **Two halves that meet become the code point of the pair**, and nothing else changes. -/
theorem points_push_of_halves {v w : Wtf8} {ps qs : List Nat} {p q : Nat}
    (hv : v.points = ps ++ [p]) (hw : w.points = q :: qs)
    (hp : CodePoint.isHighSurrogate p = true) (hq : CodePoint.isLowSurrogate q = true) :
    (v.push w).points = ps ++ CodePoint.ofPair p q :: qs := by
  have hps : CodePoint.Separated (ps ++ [p]) := hv ▸ v.separated_points
  have hqs : CodePoint.Separated (q :: qs) := hw ▸ w.separated_points
  -- the code point of the pair is no half itself, so it joins nothing before it
  have hjoined : CodePoint.Separated (ps ++ CodePoint.ofPair p q :: qs) := by
    refine hps.of_append.append (.ofPair hp hq hqs) fun _ _ _ q' hq' => ?_
    rw [← Option.some.inj hq']
    exact CodePoint.isLowSurrogate_eq_false (CodePoint.ofPair_bounds hp hq).1
  have hattach : CodePoint.attach p (q :: qs) = CodePoint.ofPair p q :: qs := by
    simp only [CodePoint.attach, hp, hq, Bool.and_self, if_true]
  rw [push, points_ofPoints, hv, hw, List.foldr_append, List.foldr_cons, List.foldr_nil, hattach]
  exact CodePoint.foldr_attach_of_separated hjoined

/-! ### Texts of several parts -/

@[simp]
theorem units_concat (ws : List Wtf8) : (concat ws).units = ws.flatMap units := by
  rw [concat, units_ofPoints]
  induction ws with
  | nil => rfl
  | cons w ws ih =>
    rw [List.flatMap_cons, ← ih]
    exact CodePoint.flatMap_units_foldr _ _

/-- The texts are put together as if each were pushed after those before it. -/
theorem concat_eq_foldl (ws : List Wtf8) : concat ws = ws.foldl push empty := by
  have hfold (v : Wtf8) : (ws.foldl push v).units = v.units ++ ws.flatMap units := by
    induction ws generalizing v with
    | nil => exact (List.append_nil _).symm
    | cons w ws ih => rw [List.foldl_cons, ih, units_push, List.flatMap_cons, List.append_assoc]
  rw [← units_inj, units_concat, hfold]
  rfl

/-! ### Strings -/

theorem ofString_eq_ofPoints (s : String) :
    ofString s = ofPoints (s.toList.map Char.toNat) (CodePoint.separated_chars _) := by
  have hbytes : s.toList.flatMap String.utf8EncodeChar =
      (s.toList.map Char.toNat).flatMap CodePoint.bytes :=
    (List.flatMap_map Char.toNat CodePoint.bytes s.toList).symm
  unfold ofString ofPoints
  congr 1
  exact congrArg List.toArray hbytes

/-- The bytes of UTF-8 have the units of UTF-16. -/
@[simp]
theorem units_ofString (s : String) : (ofString s).units = (Text.ofString s).units := by
  rw [ofString_eq_ofPoints, units_ofPoints, List.flatMap_map]
  rfl

end Wtf8

end ObjectModel
