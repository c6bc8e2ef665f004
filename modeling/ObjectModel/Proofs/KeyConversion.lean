import ObjectModel.Proofs.Interning
import ObjectModel.Proofs.PropertyNames
import ObjectModel.Script.Converting

/-!
# Keys of texts

The key of a text is the number that it is the decimal form of, or the text itself, so it can be
turned back (`toValue_ofText`) and no two texts have one key (`text_keys`).

Whether a name is an index is read from its units where a text is given, and from its bytes where
a string is given.  Only ASCII can be an index, and ASCII has the same bytes as units, so both
readings agree on every encoded text (`arrayIndex?_ofBytes`).
-/

namespace ObjectModel

/-! ## Indexes in bytes -/

namespace CodePoint

theorem map_bytes_of_lt {p : Nat} (hp : p < 0x80) : (bytes p).map UInt8.toUInt16 = units p := by
  have hbyte : bytes p = [UInt8.ofNat p] := if_pos (by omega)
  have hunit : (UInt8.ofNat p).toUInt16 = UInt16.ofNat p := by
    apply UInt16.toNat_inj.1
    rw [UInt8.toNat_toUInt16, toNat_byte (by omega), toNat_unit (by omega)]
  rw [hbyte, units_of_lt (by omega), List.map_cons, List.map_nil, hunit]

theorem exists_byte_ge {p : Nat} (hp : 0x80 ≤ p) : ∃ b ∈ bytes p, 0x80 ≤ b.toNat := by
  have hlast : 0x80 ≤ (UInt8.ofNat (p % 64 + 0x80)).toNat := by
    rw [toNat_byte (by omega)]
    omega
  refine ⟨_, ?_, hlast⟩
  unfold bytes
  rw [if_neg (by omega)]
  split
  · simp
  · split <;> simp

theorem exists_unit_ge {p : Nat} (hp : 0x80 ≤ p) (hlt : p < limit) :
    ∃ u ∈ units p, 0x80 ≤ u.toNat := by
  have hlt : p < 0x110000 := hlt
  unfold units
  split
  · next hsmall => exact ⟨_, List.mem_singleton_self _, by rw [toNat_unit hsmall]; exact hp⟩
  · refine ⟨_, List.mem_cons_self, ?_⟩
    rw [toNat_unit (by omega)]
    omega

end CodePoint

namespace Text

/-- What has a unit beyond ASCII is no index. -/
theorem arrayIndex?_eq_none {t : Text} {u : UInt16} (hu : u ∈ t.units) (hge : 0x80 ≤ u.toNat) :
    t.arrayIndex? = none := by
  rw [Option.eq_none_iff_forall_ne_some]
  intro n hn
  obtain ⟨rfl, -⟩ := arrayIndex?_eq_some_iff.1 hn
  have hlt := lt_of_isDigit (List.all_eq_true.1 (all_isDigit_ofNat n) u hu)
  omega

/-- **An index is read from bytes as it is from units.** -/
theorem arrayIndex?_ofBytes (w : Wtf8) :
    (ofBytes w.bytes).arrayIndex? = (⟨w.units⟩ : Text).arrayIndex? := by
  obtain ⟨ps, hps, rfl⟩ := w.exists_eq_ofPoints
  rw [Wtf8.units_ofPoints]
  by_cases hascii : ∀ p ∈ ps, p < 0x80
  · -- every code point is one byte and one unit, of the same value
    have hsame : (ps.flatMap CodePoint.bytes).map UInt8.toUInt16 =
        ps.flatMap CodePoint.units := by
      rw [List.map_flatMap]
      exact List.flatMap_congr fun p hp => CodePoint.map_bytes_of_lt (hascii p hp)
    exact congrArg (fun us => arrayIndex? ⟨us⟩) hsame
  · obtain ⟨p, hp⟩ := Classical.not_forall.1 hascii
    obtain ⟨hmem, hge⟩ := Classical.not_imp.1 hp
    obtain ⟨b, hb, hbge⟩ := CodePoint.exists_byte_ge (Nat.not_lt.1 hge)
    obtain ⟨u, hu, huge⟩ := CodePoint.exists_unit_ge (Nat.not_lt.1 hge) (hps.lt_limit p hmem)
    have hbyte : b.toUInt16 ∈ (ofBytes (Wtf8.ofPoints ps hps).bytes).units :=
      List.mem_map_of_mem (List.mem_flatMap.2 ⟨p, hmem, hb⟩)
    have hunit : u ∈ (⟨ps.flatMap CodePoint.units⟩ : Text).units :=
      List.mem_flatMap.2 ⟨p, hmem, hu⟩
    rw [arrayIndex?_eq_none hunit huge]
    exact arrayIndex?_eq_none hbyte (by rw [UInt8.toNat_toUInt16]; exact hbge)

end Text

/-! ## Keys of strings -/

/-- The key of a string is that of its text, whatever makes the text. -/
theorem Engine.keyOf_apply (make : String → TextConstruction) {s : String}
    (hmake : ∀ t, (make s).meaning t = (Text.ofString s).units) (m : Machine) :
    ∃ texts, Engine.keyOf make s m = .ok (.ofText (Text.ofString s)) { m with texts } := by
  have hindex : (Text.ofBytes (Wtf8.ofString s).bytes).arrayIndex? =
      (Text.ofString s).arrayIndex? := by
    rw [Text.arrayIndex?_ofBytes, Wtf8.units_ofString]
  unfold Engine.keyOf Key.ofText
  rw [hindex]
  cases (Text.ofString s).arrayIndex? with
  | some i => exact ⟨m.texts, rfl⟩
  | none =>
    refine ⟨(m.texts.make (make s)).2, ?_⟩
    have htext : (⟨((make s).encoded m.texts).units⟩ : Text) = Text.ofString s := by
      rw [TextConstruction.units_encoded, hmake]
    exact congrArg (fun t => EStateM.Result.ok (Key.name t) _) htext

namespace Key

theorem toValue_ofText (t : Text) : (ofText t).toValue = .text t := by
  obtain ⟨-, hsymbol⟩ := canonical_ofText t
  have hspelling := spelling_ofText t
  cases h : ofText t with
  | index i =>
    rw [h] at hspelling
    exact congrArg Value.text hspelling
  | name t' =>
    rw [h] at hspelling
    exact congrArg Value.text hspelling
  | symbol s =>
    rw [h] at hsymbol
    cases hsymbol

theorem ofText_eq_index_iff {t : Text} {n : Nat} :
    ofText t = .index n ↔ t = Text.ofNat n ∧ n < indexLimit := by
  rw [← Text.arrayIndex?_eq_some_iff]
  unfold ofText
  cases t.arrayIndex? <;> simp

theorem ofText_eq_name_iff {t : Text} :
    ofText t = .name t ↔ ¬ ∃ n < indexLimit, t = Text.ofNat n := by
  have hnone : t.arrayIndex? = none ↔ ¬ ∃ n < indexLimit, t = Text.ofNat n := by
    rw [Option.eq_none_iff_forall_ne_some]
    constructor
    · rintro h ⟨n, hlt, rfl⟩
      exact h n (Text.arrayIndex?_eq_some_iff.2 ⟨rfl, hlt⟩)
    · intro h n hn
      obtain ⟨rfl, hlt⟩ := Text.arrayIndex?_eq_some_iff.1 hn
      exact h ⟨n, hlt, rfl⟩
  rw [← hnone]
  unfold ofText
  cases t.arrayIndex? <;> simp

/-- The limit of the indexes, and texts that spell a number in another form. -/
example :
    ofText "4294967294" = .index 4294967294 ∧ ofText "4294967295" = .name "4294967295" ∧
    ofText "0" = .index 0 ∧ ofText "007" = .name "007" ∧ ofText "-1" = .name "-1" ∧
    ofText "1.0" = .name "1.0" ∧ ofText "" = .name "" := by decide +kernel

end Key

end ObjectModel
