import ObjectModel.Proofs.Quotation

/-!
# Quoted texts are string literals

A string literal is a mark, units and escapes, and the mark again.  `stringLiteral?` reads one: of
the escapes it takes the five short ones, the two with hexadecimal digits, and a backslash before
the mark or a backslash; it refuses every other escape, digits that are missing or no digits, a bare
line break, a literal without an end and whatever stands after the end.

A quoted text is such a literal and is read back as the text, whatever units the text has.  It is
printable, and the mark occurs inside of it only after a backslash that is no escaped one itself.
-/

namespace ObjectModel.Text

/-! ## Reading -/

/-- The value of a hexadecimal digit, in upper or lower case. -/
def hexDigit? (u : UInt16) : Option Nat :=
  if 0x30 ≤ u ∧ u ≤ 0x39 then some (u.toNat - 0x30)
  else if 0x41 ≤ u ∧ u ≤ 0x46 then some (u.toNat - 0x41 + 10)
  else if 0x61 ≤ u ∧ u ≤ 0x66 then some (u.toNat - 0x61 + 10)
  else none

/-- The number that units spell, if all of them are hexadecimal digits. -/
def hexNumber? (us : List UInt16) : Option Nat :=
  us.foldlM (fun n u => (hexDigit? u).map fun d => 16 * n + d) 0

/-- The unit that the first `width` units spell in hexadecimal digits, and the rest. -/
def takeHex? (width : Nat) (us : List UInt16) : Option (UInt16 × List UInt16) :=
  if us.length < width then none
  else (hexNumber? (us.take width)).map fun n => (UInt16.ofNat n, us.drop width)

/-- The unit that a backslash and one more unit stand for. -/
def shortEscape? (mark u : UInt16) : Option UInt16 :=
  if u = 0x62 then some 0x08
  else if u = 0x74 then some 0x09
  else if u = 0x6E then some 0x0A
  else if u = 0x76 then some 0x0B
  else if u = 0x72 then some 0x0D
  else if u = mark ∨ u = backslash then some u
  else none

/-- The unit of the escape whose backslash has been read, and the rest. -/
def takeEscape? (mark : UInt16) : List UInt16 → Option (UInt16 × List UInt16)
  | [] => none
  | u :: rest =>
    if u = 0x78 then takeHex? 2 rest
    else if u = 0x75 then takeHex? 4 rest
    else (shortEscape? mark u).map fun v => (v, rest)

/-- The first unit inside a literal, written as it is or by an escape, and the rest. -/
def takeUnit? (mark : UInt16) : List UInt16 → Option (UInt16 × List UInt16)
  | [] => none
  | u :: rest =>
    if u = backslash then takeEscape? mark rest
    else if u = mark ∨ u = 0x0A ∨ u = 0x0D then none
    else some (u, rest)

theorem length_of_takeHex? {width : Nat} {v : UInt16} {us rest : List UInt16}
    (h : takeHex? width us = some (v, rest)) : rest.length ≤ us.length := by
  unfold takeHex? at h
  split at h
  · cases h
  · obtain ⟨n, -, hn⟩ := Option.map_eq_some_iff.1 h
    rw [← (Prod.mk.inj hn).2, List.length_drop]
    exact Nat.sub_le _ _

theorem length_of_takeEscape? {mark v : UInt16} {us rest : List UInt16}
    (h : takeEscape? mark us = some (v, rest)) : rest.length ≤ us.length := by
  cases us with
  | nil => cases h
  | cons u us =>
    rw [takeEscape?] at h
    rw [List.length_cons]
    split at h
    · exact Nat.le_succ_of_le (length_of_takeHex? h)
    · split at h
      · exact Nat.le_succ_of_le (length_of_takeHex? h)
      · obtain ⟨w, -, hw⟩ := Option.map_eq_some_iff.1 h
        rw [← (Prod.mk.inj hw).2]
        exact Nat.le_succ _

/-- What is left after a unit is shorter. -/
theorem length_of_takeUnit? {mark v : UInt16} {us rest : List UInt16}
    (h : takeUnit? mark us = some (v, rest)) : rest.length < us.length := by
  cases us with
  | nil => cases h
  | cons u us =>
    rw [takeUnit?] at h
    rw [List.length_cons, Nat.lt_succ_iff]
    split at h
    · exact length_of_takeEscape? h
    · split at h
      · cases h
      · cases h
        exact Nat.le_refl _

/-- The units up to the mark that ends a literal; nothing follows it. -/
def literalBody? (mark : UInt16) (us : List UInt16) : Option (List UInt16) :=
  if us = [mark] then some []
  else
    match _h : takeUnit? mark us with
    | none => none
    | some (v, rest) => (literalBody? mark rest).map (v :: ·)
termination_by us.length
decreasing_by exact length_of_takeUnit? _h

/-- The text that a string literal between two marks denotes. -/
def stringLiteral? (mark : UInt16) (t : Text) : Option Text :=
  match t.units with
  | [] => none
  | u :: rest => if u = mark then (literalBody? mark rest).map Text.mk else none

/-! ## Reading what was quoted -/

theorem hexDigit?_hexDigit {n : Nat} (hn : n < 16) : hexDigit? (hexDigit n) = some n := by
  revert n
  decide

theorem hexNumber?_hexDigits (width n : Nat) :
    hexNumber? (hexDigits width n) = some (n % 16 ^ width) := by
  induction width generalizing n with
  | zero => simp [hexDigits, hexNumber?, Nat.mod_one]
  | succ width ih =>
    have hrest := ih (n / 16)
    unfold hexNumber? at hrest
    have hvalue : 16 * (n / 16 % 16 ^ width) + n % 16 = n % 16 ^ (width + 1) := by
      rw [Nat.pow_succ, Nat.mul_comm (16 ^ width) 16, Nat.mod_mul]
      omega
    rw [hexDigits, hexNumber?, List.foldlM_append, hrest]
    simp [hexDigit?_hexDigit (Nat.mod_lt n (by decide : 0 < 16)), hvalue]

/-- Digits of a fixed width are read whatever follows them. -/
theorem takeHex?_hexDigits {width : Nat} {u : UInt16} (hu : u.toNat < 16 ^ width)
    (rest : List UInt16) : takeHex? width (hexDigits width u.toNat ++ rest) = some (u, rest) := by
  have hlength := length_hexDigits width u.toNat
  have henough : ¬ (hexDigits width u.toNat ++ rest).length < width := by
    rw [List.length_append, hlength]
    omega
  rw [takeHex?, if_neg henough, List.take_left' hlength, List.drop_left' hlength,
    hexNumber?_hexDigits, Nat.mod_eq_of_lt hu, Option.map_some, UInt16.ofNat_toNat]

/-- **The escape of a unit is read back as the unit**, whatever follows it. -/
theorem takeUnit?_escapeUnit {mark : UInt16} (hmark : IsMark mark) (u : UInt16)
    (rest : List UInt16) : takeUnit? mark (escapeUnit mark u ++ rest) = some (u, rest) := by
  have hletter : mark ≠ 0x78 ∧ mark ≠ 0x75 ∧ mark ≠ 0x62 ∧ mark ≠ 0x74 ∧ mark ≠ 0x6E ∧
      mark ≠ 0x76 ∧ mark ≠ 0x72 := by
    rcases hmark with rfl | rfl <;> decide
  have h := escape_escapeUnit mark u
  generalize escapeUnit mark u = vs at h ⊢
  cases h with
  | letter h =>
    simp only [letterEscapes, List.mem_cons, Prod.mk.injEq, List.not_mem_nil, or_false] at h
    rcases h with ⟨rfl, rfl⟩ | ⟨rfl, rfl⟩ | ⟨rfl, rfl⟩ | ⟨rfl, rfl⟩ | ⟨rfl, rfl⟩ <;> rfl
  | itself h =>
    show ((if u = 0x78 then _ else _ : Option (UInt16 × List UInt16))) = _
    rcases h with rfl | rfl
    · simp [shortEscape?, hletter]
    · simp [shortEscape?, backslash]
  | plain hmark hbackslash h =>
    have hbare : ¬ (u = mark ∨ u = 0x0A ∨ u = 0x0D) := by
      rintro (rfl | rfl | rfl)
      · exact hmark rfl
      · exact absurd h (by decide)
      · exact absurd h (by decide)
    exact (if_neg hbackslash).trans (if_neg hbare)
  | short hlt => exact takeHex?_hexDigits (show u.toNat < 16 ^ 2 from hlt) rest
  | long => exact takeHex?_hexDigits (show u.toNat < 16 ^ 4 from u.toNat_lt) rest

theorem literalBody?_of_takeUnit? {mark v : UInt16} {us rest : List UInt16}
    (h : takeUnit? mark us = some (v, rest)) :
    literalBody? mark us = (literalBody? mark rest).map (v :: ·) := by
  have hopen : us ≠ [mark] := by
    rintro rfl
    rw [takeUnit?] at h
    split at h
    · cases h
    · rw [if_pos (.inl rfl)] at h
      cases h
  rw [literalBody?, if_neg hopen]
  split
  · next hnone => rw [h] at hnone; cases hnone
  · next hsome =>
    rw [h] at hsome
    cases hsome
    rfl

theorem literalBody?_escapeUnits {mark : UInt16} (hmark : IsMark mark) (us : List UInt16) :
    literalBody? mark (us.flatMap (escapeUnit mark) ++ [mark]) = some us := by
  induction us with
  | nil =>
    rw [literalBody?]
    exact if_pos rfl
  | cons u us ih =>
    have hread := takeUnit?_escapeUnit hmark u (us.flatMap (escapeUnit mark) ++ [mark])
    rw [List.flatMap_cons, List.append_assoc, literalBody?_of_takeUnit? hread, ih, Option.map_some]

/-- **A quoted text is read back as the text.** -/
theorem stringLiteral?_quoteWith {mark : UInt16} (hmark : IsMark mark) (t : Text) :
    stringLiteral? mark (quoteWith mark t) = some t := by
  have hread : stringLiteral? mark (quoteWith mark t) =
      (literalBody? mark (t.units.flatMap (escapeUnit mark) ++ [mark])).map Text.mk := if_pos rfl
  rw [hread, literalBody?_escapeUnits hmark, Option.map_some]

/-! ## Where the mark stands -/

/-- A unit after these ones is escaped: the last of them is a backslash that is not escaped. -/
def escapesNext (us : List UInt16) : Bool :=
  us.foldl (fun pending u => !pending && u == backslash) false

/-- The units are enclosed by the mark, which is escaped wherever it stands inside. -/
def Enclosed (mark : UInt16) (us : List UInt16) : Prop :=
  ∃ body, us = mark :: body ++ [mark] ∧ escapesNext (mark :: body) = false ∧
    ∀ before after, body = before ++ mark :: after → escapesNext (mark :: before) = true

theorem escapesNext_append {us vs : List UInt16} (h : escapesNext us = false) :
    escapesNext (us ++ vs) = escapesNext vs := by
  unfold escapesNext at h ⊢
  rw [List.foldl_append, h]

/-- Hexadecimal digits are neither backslashes nor marks. -/
theorem hexDigits_plain {mark : UInt16} (hmark : IsMark mark) (width n : Nat) :
    ∀ u ∈ hexDigits width n, u ≠ backslash ∧ u ≠ mark := by
  refine forall_mem_hexDigits (P := fun u => u ≠ backslash ∧ u ≠ mark) ?_ width n
  rcases hmark with rfl | rfl <;> decide

theorem escapesNext_of_plain {us : List UInt16} (h : ∀ u ∈ us, u ≠ backslash) :
    escapesNext us = false := by
  induction us with
  | nil => rfl
  | cons u us ih =>
    have hfirst : escapesNext [u] = false := by
      have hu := h u List.mem_cons_self
      simp [escapesNext, hu]
    rw [← List.singleton_append, escapesNext_append hfirst]
    exact ih fun v hv => h v (List.mem_cons_of_mem u hv)

/-- An escape is a backslash, a unit and perhaps digits, or it is the unit itself. -/
theorem escapeUnit_forms {mark : UInt16} (hmark : IsMark mark) (u : UInt16) :
    (∃ v vs, escapeUnit mark u = backslash :: v :: vs ∧ ∀ w ∈ vs, w ≠ backslash ∧ w ≠ mark) ∨
      escapeUnit mark u = [u] ∧ u ≠ backslash ∧ u ≠ mark := by
  have h := escape_escapeUnit mark u
  generalize escapeUnit mark u = vs at h ⊢
  cases h with
  | letter _ => exact .inl ⟨_, [], rfl, nofun⟩
  | itself _ => exact .inl ⟨_, [], rfl, nofun⟩
  | plain hmark hbackslash _ => exact .inr ⟨rfl, hbackslash, hmark⟩
  | short _ => exact .inl ⟨_, _, rfl, hexDigits_plain hmark 2 _⟩
  | long => exact .inl ⟨_, _, rfl, hexDigits_plain hmark 4 _⟩

/-- After an escape nothing is escaped. -/
theorem escapesNext_escapeUnit {mark : UInt16} (hmark : IsMark mark) (u : UInt16) :
    escapesNext (escapeUnit mark u) = false := by
  rcases escapeUnit_forms hmark u with ⟨v, vs, hescape, hplain⟩ | ⟨hbare, hne, -⟩
  · have hpair : escapesNext [backslash, v] = false := rfl
    rw [hescape, show backslash :: v :: vs = [backslash, v] ++ vs from rfl,
      escapesNext_append hpair]
    exact escapesNext_of_plain fun w hw => (hplain w hw).1
  · rw [hbare]
    simp [escapesNext, hne]

/-- The mark is escaped in an escape. -/
theorem escapesNext_of_mark {mark : UInt16} (hmark : IsMark mark) {u : UInt16}
    {before after : List UInt16} (h : escapeUnit mark u = before ++ mark :: after) :
    escapesNext before = true := by
  have hbackslash : backslash ≠ mark := by rcases hmark with rfl | rfl <;> decide
  rcases escapeUnit_forms hmark u with ⟨v, vs, hescape, hplain⟩ | ⟨hbare, -, hne⟩
  · rw [hescape] at h
    cases before with
    | nil => exact absurd (List.cons.inj h).1 hbackslash
    | cons w before =>
      obtain ⟨rfl, htail⟩ := List.cons.inj h
      cases before with
      | nil => rfl
      | cons w' before =>
        have hvs : vs = before ++ mark :: after := (List.cons.inj htail).2
        exact absurd rfl (hplain mark (by simp [hvs])).2
  · rw [hbare] at h
    cases before with
    | nil => exact absurd (List.cons.inj h).1 hne
    | cons w before => simpa using (List.cons.inj h).2

theorem escapesNext_escapeUnits {mark : UInt16} (hmark : IsMark mark) (us : List UInt16) :
    escapesNext (us.flatMap (escapeUnit mark)) = false := by
  induction us with
  | nil => rfl
  | cons u us ih => rw [List.flatMap_cons, escapesNext_append (escapesNext_escapeUnit hmark u), ih]

/-- **Inside a quoted text the mark is escaped.** -/
theorem escapesNext_of_mark_inside {mark : UInt16} (hmark : IsMark mark)
    {us before after : List UInt16}
    (h : us.flatMap (escapeUnit mark) = before ++ mark :: after) : escapesNext before = true := by
  induction us generalizing before with
  | nil => simp at h
  | cons u us ih =>
    rw [List.flatMap_cons, List.append_eq_append_iff] at h
    rcases h with ⟨rest, rfl, hrest⟩ | ⟨rest, hescape, hrest⟩
    · rw [escapesNext_append (escapesNext_escapeUnit hmark u)]
      exact ih hrest
    · cases rest with
      | nil =>
        -- the next escape would start with the mark
        have hescaped : escapesNext [] = true := ih hrest.symm
        cases hescaped
      | cons w rest =>
        rw [← (List.cons.inj hrest).1] at hescape
        exact escapesNext_of_mark hmark hescape

theorem enclosed_quoteWith {mark : UInt16} (hmark : IsMark mark) (t : Text) :
    Enclosed mark (quoteWith mark t).units := by
  have hfirst : escapesNext [mark] = false := by rcases hmark with rfl | rfl <;> rfl
  refine ⟨t.units.flatMap (escapeUnit mark), rfl, ?_, fun before after hbody => ?_⟩
  · rw [← List.singleton_append, escapesNext_append hfirst]
    exact escapesNext_escapeUnits hmark t.units
  · rw [← List.singleton_append, escapesNext_append hfirst]
    exact escapesNext_of_mark_inside hmark hbody

/-! ## Printable units -/

/-- A unit from the space to the tilde. -/
def IsPrintable (u : UInt16) : Prop := 0x20 ≤ u ∧ u ≤ 0x7E

instance (u : UInt16) : Decidable (IsPrintable u) := inferInstanceAs (Decidable (_ ∧ _))

theorem isPrintable_of_mem_escapeUnit {mark : UInt16} (hmark : IsMark mark) (u : UInt16) :
    ∀ v ∈ escapeUnit mark u, IsPrintable v := by
  have hescape {v : UInt16} {vs : List UInt16} (hv : IsPrintable v)
      (hvs : ∀ w ∈ vs, IsPrintable w) : ∀ w ∈ backslash :: v :: vs, IsPrintable w :=
    List.forall_mem_cons.2 ⟨by decide, List.forall_mem_cons.2 ⟨hv, hvs⟩⟩
  have hdigits (width n : Nat) : ∀ w ∈ hexDigits width n, IsPrintable w :=
    forall_mem_hexDigits (by decide) width n
  have hletters : letterEscapes.all (fun e => IsPrintable e.2) = true := by decide
  have h := escape_escapeUnit mark u
  generalize escapeUnit mark u = vs at h ⊢
  cases h with
  | letter h => exact hescape (of_decide_eq_true (List.all_eq_true.1 hletters _ h)) nofun
  | itself h =>
    refine hescape ?_ nofun
    rcases h with rfl | rfl
    · rcases hmark with rfl | rfl <;> decide
    · decide
  | plain _ _ h =>
    intro v hv
    rw [List.mem_singleton.1 hv]
    exact h
  | short _ => exact hescape (by decide) (hdigits 2 _)
  | long => exact hescape (by decide) (hdigits 4 _)

theorem isPrintable_of_mem_quoteWith {mark : UInt16} (hmark : IsMark mark) (t : Text) :
    ∀ u ∈ (quoteWith mark t).units, IsPrintable u := by
  have hends : IsPrintable mark := by rcases hmark with rfl | rfl <;> decide
  intro u hu
  rcases List.mem_append.1 hu with hu | hu
  · rcases List.mem_cons.1 hu with rfl | hu
    · exact hends
    · obtain ⟨v, -, huv⟩ := List.mem_flatMap.1 hu
      exact isPrintable_of_mem_escapeUnit hmark v u huv
  · rw [List.mem_singleton.1 hu]
    exact hends

/-- **A quoted text is a string literal of its text**: it is printable, it starts and ends with the
mark, which inside of it is always escaped, and it is read back as the text, so that different texts
are quoted differently. -/
theorem quoted_text_is_literal {mark : UInt16} (hmark : IsMark mark) (t : Text) :
    (∀ u ∈ (quoteWith mark t).units, IsPrintable u) ∧
      Enclosed mark (quoteWith mark t).units ∧
      stringLiteral? mark (quoteWith mark t) = some t ∧
      ∀ t', quoteWith mark t' = quoteWith mark t → t' = t := by
  refine ⟨isPrintable_of_mem_quoteWith hmark t, enclosed_quoteWith hmark t,
    stringLiteral?_quoteWith hmark t, fun t' heq => ?_⟩
  have hread := stringLiteral?_quoteWith hmark t'
  rw [heq, stringLiteral?_quoteWith hmark t] at hread
  exact (Option.some.inj hread).symm

/-- NUL, the mark, a backslash, a line break before digits, a letter of Latin 1 and half of a
surrogate pair. -/
theorem quoted_text_is_literal_of_awkward_units :
    ∃ t : Text, t.units = [0, singleQuote, backslash, 0x0A, 0x31, 0xE9, 0x62, 0xD83D] ∧
      IsMark singleQuote ∧
      (∀ u ∈ (quoteWith singleQuote t).units, IsPrintable u) ∧
      Enclosed singleQuote (quoteWith singleQuote t).units ∧
      stringLiteral? singleQuote (quoteWith singleQuote t) = some t ∧
      ∀ t', quoteWith singleQuote t' = quoteWith singleQuote t → t' = t :=
  ⟨⟨[0, singleQuote, backslash, 0x0A, 0x31, 0xE9, 0x62, 0xD83D]⟩, rfl, .inr rfl,
    quoted_text_is_literal (.inr rfl) _⟩

end ObjectModel.Text
