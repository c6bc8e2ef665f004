import Mathlib.Data.List.Forall2
import ObjectModel.Proofs.NumberText
import ObjectModel.Proofs.Serialization

/-!
# Literals are unambiguous

Inside a literal a value is followed by a comma or a closing bracket, and no value starts with
one.  So where a value ends can be seen from its start on: from the first units for the kind of
value, from the closing mark for a text, from the matching bracket for an array or an object.
`Text.AgreeOnlyIf` says this of two texts, with the relation that then holds between the values.
-/

namespace ObjectModel

namespace Text

theorem units_append (s t : Text) : (s ++ t).units = s.units ++ t.units := rfl

/-! ## Values inside a literal -/

/-- The unit ends a value inside of a literal. -/
def closes (u : UInt16) : Bool := u == 0x2C || u == 0x5D || u == 0x7D

/-- Nothing follows, or what follows ends a value. -/
def Closing (us : List UInt16) : Prop := ∀ u ∈ us.head?, closes u = true

/-- The text does not start like the end of a value. -/
def Opening (t : Text) : Prop := ∀ rest, ¬ Closing (t.units ++ rest)

/-- Where both texts are ended, they are the start of one text only if `R` holds, and then the
same is left of it. -/
def AgreeOnlyIf (R : Prop) (s t : Text) : Prop :=
  ∀ rest rest' : List UInt16, Closing rest → Closing rest' →
    s.units ++ rest = t.units ++ rest' → R ∧ rest = rest'

theorem AgreeOnlyIf.mono {R R' : Prop} {s t : Text} (h : AgreeOnlyIf R s t) (himp : R → R') :
    AgreeOnlyIf R' s t := by
  intro rest rest' hrest hrest' heq
  obtain ⟨hR, hleft⟩ := h rest rest' hrest hrest' heq
  exact ⟨himp hR, hleft⟩

theorem closes_of_all {t : Text} (h : t.units.all (!closes ·) = true) :
    ∀ u ∈ t.units, closes u = false := by
  simpa using h

/-- Texts without closing units are told apart. -/
theorem agreeOnlyIf_plain {s t : Text} (hs : ∀ u ∈ s.units, closes u = false)
    (ht : ∀ u ∈ t.units, closes u = false) : AgreeOnlyIf (s = t) s t := by
  intro rest rest' hrest hrest' heq
  have hstop {us : List UInt16} (h : Closing us) : ∀ u ∈ us.head?, (!closes u) = false := by
    simpa [Closing] using h
  obtain ⟨hunits, hleft⟩ := append_inj_of_stop (p := fun u => !closes u) (by simpa using hs)
    (by simpa using ht) (hstop hrest) (hstop hrest') heq
  exact ⟨congrArg Text.mk hunits, hleft⟩

/-- Quoted texts are told apart by what they quote. -/
theorem agreeOnlyIf_quote (s t : Text) : AgreeOnlyIf (s = t) s.quote t.quote :=
  fun _ _ _ _ heq => quoteWith_append_inj (.inl rfl) heq

/-! ## The forms of values -/

/-- The kinds of values that literals tell apart. -/
inductive Form where
  | undefined
  | null
  | bool
  | number
  | text
  | array
  | object
  deriving DecidableEq

/-- The kind of value that a text starts with, seen from its first units. -/
def form? : List UInt16 → Option Form
  | [] => none
  | u :: rest =>
    if closes u then none
    else if u == 0x28 then some (if rest.head? == some 0x7B then .object else .undefined)
    else if u == 0x7B then some .object
    else if u == 0x5B then some .array
    else if u == 0x22 then some .text
    else if u == 0x6E then some .null
    else if u == 0x74 || u == 0x66 then some .bool
    else some .number

/-- The text starts like a value of this form, whatever follows it. -/
def HasForm (t : Text) (f : Form) : Prop := ∀ rest, form? (t.units ++ rest) = some f

theorem form?_of_closing {us : List UInt16} (h : Closing us) : form? us = none := by
  cases us with
  | nil => rfl
  | cons u us => exact if_pos (h u rfl)

theorem HasForm.opening {t : Text} {f : Form} (h : t.HasForm f) : t.Opening := by
  intro rest hclosing
  have hnone := form?_of_closing hclosing
  rw [h rest] at hnone
  cases hnone

/-- Texts of different forms have no common start. -/
theorem agreeOnlyIf_of_form_ne {R : Prop} {s t : Text} {f g : Form} (hs : s.HasForm f)
    (ht : t.HasForm g) (hne : f ≠ g) : AgreeOnlyIf R s t := by
  intro rest rest' _ _ heq
  have hform := hs rest
  rw [heq, ht rest'] at hform
  exact absurd (Option.some.inj hform).symm hne

/-! ## Numbers -/

/-- The units of finite numbers. -/
def isDecimalUnit (u : UInt16) : Bool :=
  isDigit u || u == 0x2E || u == 0x65 || u == 0x2B || u == 0x2D

theorem isDecimalUnit_of_mem_unitsOfChar {c : Char} (hc : Decimal.IsDecimalChar c) {u : UInt16}
    (hu : u ∈ unitsOfChar c) : isDecimalUnit u = true := by
  rcases hc with hdigit | hother
  · obtain ⟨v, hv, hdigit, -⟩ := unitsOfChar_of_isDigit hdigit
    rw [hv, List.mem_singleton] at hu
    rw [hu, isDecimalUnit, hdigit]
    rfl
  · simp only [List.mem_cons, List.not_mem_nil, or_false] at hother
    rcases hother with rfl | rfl | rfl | rfl <;>
      exact (List.all_eq_true (p := isDecimalUnit)).1 (by decide) u hu

theorem isDecimalUnit_of_mem_toText {negative : Bool} {code : Fin infiniteCode} {u : UInt16}
    (hu : u ∈ (Number.finite negative code).toText.units) : isDecimalUnit u = true := by
  obtain ⟨cs, htext, hcs⟩ := Number.exists_chars negative code
  rw [htext] at hu
  obtain ⟨c, hc, hu⟩ := List.mem_flatMap.1 hu
  exact isDecimalUnit_of_mem_unitsOfChar (hcs c hc) hu

/-- A unit of a finite number is none of the others. -/
theorem beq_eq_false_of_isDecimalUnit {u v : UInt16} (hu : isDecimalUnit u = true)
    (hv : isDecimalUnit v = false) : (u == v) = false := by
  rw [beq_eq_false_iff_ne]
  rintro rfl
  rw [hu] at hv
  cases hv

theorem closes_toText (n : Number) : ∀ u ∈ n.toText.units, closes u = false := by
  cases n with
  | nan => exact closes_of_all (by decide)
  | infinity negative => cases negative <;> exact closes_of_all (by decide)
  | finite negative code =>
    intro u hu
    have hunit := isDecimalUnit_of_mem_toText hu
    rw [closes, beq_eq_false_of_isDecimalUnit hunit (by decide),
      beq_eq_false_of_isDecimalUnit hunit (by decide),
      beq_eq_false_of_isDecimalUnit hunit (by decide)]
    rfl

theorem hasForm_toText (n : Number) : n.toText.HasForm .number := by
  intro rest
  cases n with
  | nan => rfl
  | infinity negative => cases negative <;> rfl
  | finite negative code =>
    have hne : (Number.finite negative code).toText.units ≠ [] := by
      intro hnil
      obtain ⟨l, hread, -⟩ := Number.readLiteral?_toText negative code
      rw [hnil] at hread
      cases hread
    obtain ⟨u, us, hunits⟩ := List.exists_cons_of_ne_nil hne
    have hmem : u ∈ (Number.finite negative code).toText.units := by simp [hunits]
    have hcloses := closes_toText _ u hmem
    have hbeq {v : UInt16} (hv : isDecimalUnit v = false) : (u == v) = false :=
      beq_eq_false_of_isDecimalUnit (isDecimalUnit_of_mem_toText hmem) hv
    rw [hunits, List.cons_append, form?, hcloses, hbeq (v := 0x28) (by decide),
      hbeq (v := 0x7B) (by decide), hbeq (v := 0x5B) (by decide), hbeq (v := 0x22) (by decide),
      hbeq (v := 0x6E) (by decide), hbeq (v := 0x74) (by decide), hbeq (v := 0x66) (by decide)]
    rfl

/-! ## Sequences -/

/-- What may follow a sequence: it ends a value and is not the separator of another. -/
def Stop (us : List UInt16) : Prop := Closing us ∧ ∀ rest, us ≠ 0x2C :: 0x20 :: rest

theorem units_join_cons_cons (s t : Text) (ts : List Text) :
    (join (ofString ", ") (s :: t :: ts)).units =
      s.units ++ 0x2C :: 0x20 :: (join (ofString ", ") (t :: ts)).units := rfl

theorem closing_separator (us : List UInt16) : Closing (0x2C :: 0x20 :: us) := by
  intro u hu
  obtain rfl : 0x2C = u := Option.some.inj hu
  decide

/-- **A sequence is told apart item by item**: after each item the separator or the end follows. -/
theorem join_append_inj {α β : Type} {R : α → β → Prop} {f : α → Text} {g : β → Text}
    {x : α} {y : β} {xs : List α} {ys : List β}
    (hagree : ∀ a ∈ x :: xs, ∀ b ∈ y :: ys, AgreeOnlyIf (R a b) (f a) (g b))
    {stop stop' : List UInt16} (hstop : Stop stop) (hstop' : Stop stop')
    (heq : (join (ofString ", ") ((x :: xs).map f)).units ++ stop =
      (join (ofString ", ") ((y :: ys).map g)).units ++ stop') :
    List.Forall₂ R (x :: xs) (y :: ys) ∧ stop = stop' := by
  induction xs generalizing x y ys with
  | nil =>
    have hfirst := hagree x List.mem_cons_self y List.mem_cons_self
    cases ys with
    | nil =>
      obtain ⟨hR, hleft⟩ := hfirst _ _ hstop.1 hstop'.1 heq
      exact ⟨.cons hR .nil, hleft⟩
    | cons y' ys =>
      rw [List.map_cons, List.map_cons, List.map_cons, units_join_cons_cons,
        List.append_assoc] at heq
      obtain ⟨-, hleft⟩ := hfirst _ _ hstop.1 (closing_separator _) heq
      exact absurd hleft (hstop.2 _)
  | cons x' xs ih =>
    have hfirst := hagree x List.mem_cons_self y List.mem_cons_self
    rw [List.map_cons, List.map_cons, units_join_cons_cons, List.append_assoc] at heq
    cases ys with
    | nil =>
      obtain ⟨-, hleft⟩ := hfirst _ _ (closing_separator _) hstop'.1 heq
      exact absurd hleft.symm (hstop'.2 _)
    | cons y' ys =>
      rw [List.map_cons, List.map_cons, units_join_cons_cons, List.append_assoc] at heq
      obtain ⟨hR, hleft⟩ := hfirst _ _ (closing_separator _) (closing_separator _) heq
      obtain ⟨hrest, hend⟩ := ih
        (fun a ha b hb => hagree a (List.mem_cons_of_mem _ ha) b (List.mem_cons_of_mem _ hb))
        (List.cons.inj (List.cons.inj hleft).2).2
      exact ⟨.cons hR hrest, hend⟩

theorem join_cons_opening {t : Text} {ts : List Text} (ht : t.Opening) :
    (join (ofString ", ") (t :: ts)).Opening := by
  cases ts with
  | nil => exact ht
  | cons t' ts =>
    intro rest hclosing
    rw [units_join_cons_cons, List.append_assoc] at hclosing
    exact ht _ hclosing

end Text

open Text

/-! ## Objects -/

/-- The entry of a property in an object literal. -/
def literalEntry (k : Key) (t : Text) : Text := k.literalName ++ Text.ofString ":" ++ t

theorem units_literalEntry (k : Key) (t : Text) :
    (literalEntry k t).units = k.literalName.units ++ 0x3A :: t.units := by
  rw [literalEntry, units_append, units_append, List.append_assoc]
  rfl

/-- A key that is the key of a text. -/
structure Key.Named (k : Key) : Prop where
  canonical : k.Canonical
  symbol : k.isSymbol = false

theorem opening_literalEntry {k : Key} (hk : k.Named) (t : Text) : (literalEntry k t).Opening := by
  intro rest hclosing
  rw [units_literalEntry] at hclosing
  rcases Key.literalName_cases hk.symbol with ⟨hname, hne, hunits⟩ | hname
  · obtain ⟨u, us, hspelling⟩ := List.exists_cons_of_ne_nil hne
    have hu := hunits u (by simp [hspelling])
    have hcloses := hclosing u (by simp [hname, hspelling])
    simp only [closes, Bool.or_eq_true, beq_iff_eq] at hcloses
    rcases hcloses with (rfl | rfl) | rfl <;> exact absurd hu (by decide)
  · have hcloses := hclosing singleQuote (by rw [hname]; rfl)
    exact absurd hcloses (by decide)

theorem agreeOnlyIf_literalEntry {k k' : Key} (hk : k.Named) (hk' : k'.Named) {R : Prop}
    {t t' : Text} (h : AgreeOnlyIf R t t') :
    AgreeOnlyIf (k = k' ∧ R) (literalEntry k t) (literalEntry k' t') := by
  intro rest rest' hrest hrest' heq
  rw [units_literalEntry, units_literalEntry, List.append_assoc, List.append_assoc] at heq
  obtain ⟨hkey, hvalue⟩ :=
    Key.literalName_append_inj hk.canonical hk'.canonical hk.symbol hk'.symbol heq
  obtain ⟨hR, hleft⟩ := h rest rest' hrest hrest' hvalue
  exact ⟨⟨hkey, hR⟩, hleft⟩

/-- What stands before and after the entries of an object literal does not depend on them. -/
theorem exists_units_objectLiteral (outermost : Bool) :
    ∃ first last : List UInt16, ∀ (entries : List (Key × Text)) (rest : List UInt16),
      (objectLiteral outermost entries).units ++ rest =
        first ++ ((join (ofString ", ") (entries.map fun e => literalEntry e.1 e.2)).units ++
          0x7D :: (last ++ rest)) := by
  cases outermost with
  | true =>
    refine ⟨[0x28, 0x7B], [0x29], fun entries rest => ?_⟩
    have hunits : (objectLiteral true entries).units = [0x28, 0x7B] ++
      ((join (ofString ", ") (entries.map fun e => literalEntry e.1 e.2)).units ++ [0x7D, 0x29]) :=
        rfl
    rw [hunits, List.append_assoc, List.append_assoc]
    rfl
  | false =>
    refine ⟨[0x7B], [], fun entries rest => ?_⟩
    have hunits : (objectLiteral false entries).units = [0x7B] ++
      ((join (ofString ", ") (entries.map fun e => literalEntry e.1 e.2)).units ++ [0x7D]) := rfl
    rw [hunits, List.append_assoc, List.append_assoc]
    rfl

theorem hasForm_objectLiteral (outermost : Bool) (entries : List (Key × Text)) :
    (objectLiteral outermost entries).HasForm .object := by
  intro rest
  cases outermost <;> rfl

theorem stop_brace (us : List UInt16) : Stop (0x7D :: us) := by
  refine ⟨fun u hu => ?_, fun rest heq => absurd (List.cons.inj heq).1 (by decide)⟩
  obtain rfl : 0x7D = u := Option.some.inj hu
  decide

/-- **Object literals are told apart by their keys and values**, in order. -/
theorem agreeOnlyIf_objectLiteral {α β : Type} {R : α → β → Prop} {outermost : Bool}
    {f : α → Key × Text} {g : β → Key × Text} {xs : List α} {ys : List β}
    (hf : ∀ x ∈ xs, (f x).1.Named) (hg : ∀ y ∈ ys, (g y).1.Named)
    (hagree : ∀ x ∈ xs, ∀ y ∈ ys, AgreeOnlyIf (R x y) (f x).2 (g y).2) :
    AgreeOnlyIf (List.Forall₂ (fun x y => (f x).1 = (g y).1 ∧ R x y) xs ys)
      (objectLiteral outermost (xs.map f)) (objectLiteral outermost (ys.map g)) := by
  intro rest rest' _ _ heq
  obtain ⟨first, last, hunits⟩ := exists_units_objectLiteral outermost
  rw [hunits, hunits, List.map_map, List.map_map] at heq
  have heq := List.append_cancel_left heq
  have hbody : List.Forall₂ (fun x y => (f x).1 = (g y).1 ∧ R x y) xs ys ∧
      0x7D :: (last ++ rest) = 0x7D :: (last ++ rest') := by
    cases xs with
    | nil =>
      cases ys with
      | nil => exact ⟨.nil, heq⟩
      | cons y ys =>
        have hopening := opening_literalEntry (hg y List.mem_cons_self) (g y).2
        have hclosing := (stop_brace (last ++ rest)).1
        have heq : 0x7D :: (last ++ rest) = _ := heq
        rw [heq] at hclosing
        exact absurd hclosing (join_cons_opening hopening _)
    | cons x xs =>
      cases ys with
      | nil =>
        have hopening := opening_literalEntry (hf x List.mem_cons_self) (f x).2
        have hclosing := (stop_brace (last ++ rest')).1
        have heq : _ = 0x7D :: (last ++ rest') := heq
        rw [← heq] at hclosing
        exact absurd hclosing (join_cons_opening hopening _)
      | cons y ys =>
        refine join_append_inj (fun a ha b hb => ?_) (stop_brace _) (stop_brace _) heq
        exact agreeOnlyIf_literalEntry (hf a ha) (hg b hb) (hagree a ha b hb)
  exact ⟨hbody.1, List.append_cancel_left (List.cons.inj hbody.2).2⟩

/-! ## Arrays -/

/-- The text of an item; a hole has none. -/
def itemText (item : Option Text) : Text := item.getD .empty

/-- An item is told apart from another, and an element from a hole. -/
theorem agreeOnlyIf_item {α β : Type} {R : α → β → Prop} {f : α → Text} {g : β → Text}
    {item : Option α} {item' : Option β} (hf : ∀ a, item = some a → (f a).Opening)
    (hg : ∀ b, item' = some b → (g b).Opening)
    (hagree : ∀ a b, item = some a → item' = some b → AgreeOnlyIf (R a b) (f a) (g b)) :
    AgreeOnlyIf (Option.Rel R item item') (itemText (item.map f)) (itemText (item'.map g)) := by
  intro rest rest' hrest hrest' heq
  cases item with
  | none =>
    cases item' with
    | none => exact ⟨.none, heq⟩
    | some b => exact absurd (heq ▸ hrest) (hg b rfl rest')
  | some a =>
    cases item' with
    | none => exact absurd (heq ▸ hrest') (hf a rfl rest)
    | some b =>
      obtain ⟨hR, hleft⟩ := hagree a b rfl rfl rest rest' hrest hrest' heq
      exact ⟨.some hR, hleft⟩

/-- The comma that a hole at the end needs. -/
def lastComma (items : List (Option Text)) : List UInt16 :=
  if items.getLast? = some none then [0x2C] else []

theorem units_arrayLiteral_append (items : List (Option Text)) (rest : List UInt16) :
    (arrayLiteral items).units ++ rest =
      0x5B :: ((join (ofString ", ") (items.map itemText)).units ++
        (lastComma items ++ 0x5D :: rest)) := by
  have hcomma : (if items.getLast? = some none then ofString "," else Text.empty).units =
      lastComma items := by
    unfold lastComma
    split <;> rfl
  simp only [arrayLiteral, units_append, hcomma, List.append_assoc]
  rfl

theorem hasForm_arrayLiteral (items : List (Option Text)) :
    (arrayLiteral items).HasForm .array := by
  intro rest
  rw [units_arrayLiteral_append]
  rfl

theorem stop_bracket (items : List (Option Text)) (us : List UInt16) :
    Stop (lastComma items ++ 0x5D :: us) := by
  unfold lastComma
  split
  · refine ⟨fun u hu => ?_, fun rest heq => ?_⟩
    · obtain rfl : 0x2C = u := Option.some.inj hu
      decide
    · exact absurd (List.cons.inj (List.cons.inj heq).2).1 (by decide)
  · refine ⟨fun u hu => ?_, fun rest heq => absurd (List.cons.inj heq).1 (by decide)⟩
    obtain rfl : 0x5D = u := Option.some.inj hu
    decide

/-- Only the empty array has its closing bracket right after the opening one. -/
theorem arrayBody_ne {item : Option Text} {items : List (Option Text)}
    (hopening : ∀ t, item = some t → t.Opening) (rest rest' : List UInt16) :
    (join (ofString ", ") ((item :: items).map itemText)).units ++
      (lastComma (item :: items) ++ 0x5D :: rest) ≠ 0x5D :: rest' := by
  intro heq
  cases item with
  | some t =>
    have hclosing := (stop_bracket [] rest').1
    have heq : _ = lastComma [] ++ 0x5D :: rest' := heq
    rw [← heq] at hclosing
    exact join_cons_opening (hopening t rfl) _ hclosing
  | none =>
    cases items with
    | nil => exact absurd (List.cons.inj heq).1 (by decide)
    | cons item items => exact absurd (List.cons.inj heq).1 (by decide)

theorem lastComma_append_inj {items items' : List (Option Text)} {rest rest' : List UInt16}
    (heq : lastComma items ++ 0x5D :: rest = lastComma items' ++ 0x5D :: rest') :
    rest = rest' := by
  unfold lastComma at heq
  split at heq <;> split at heq
  · exact (List.cons.inj (List.cons.inj heq).2).2
  · exact absurd (List.cons.inj heq).1 (by decide)
  · exact absurd (List.cons.inj heq).1 (by decide)
  · exact (List.cons.inj heq).2

/-- **Array literals are told apart by their elements and holes.** -/
theorem agreeOnlyIf_arrayLiteral {α β : Type} {R : α → β → Prop} {f : α → Option Text}
    {g : β → Option Text} {xs : List α} {ys : List β}
    (hf : ∀ x ∈ xs, ∀ t, f x = some t → t.Opening) (hg : ∀ y ∈ ys, ∀ t, g y = some t → t.Opening)
    (hagree : ∀ x ∈ xs, ∀ y ∈ ys, AgreeOnlyIf (R x y) (itemText (f x)) (itemText (g y))) :
    AgreeOnlyIf (List.Forall₂ R xs ys) (arrayLiteral (xs.map f)) (arrayLiteral (ys.map g)) := by
  intro rest rest' _ _ heq
  rw [units_arrayLiteral_append, units_arrayLiteral_append] at heq
  have heq := (List.cons.inj heq).2
  have hbody : List.Forall₂ R xs ys ∧
      lastComma (xs.map f) ++ 0x5D :: rest = lastComma (ys.map g) ++ 0x5D :: rest' := by
    cases xs with
    | nil =>
      cases ys with
      | nil => exact ⟨.nil, heq⟩
      | cons y ys => exact absurd heq.symm (arrayBody_ne (hg y List.mem_cons_self) _ _)
    | cons x xs =>
      cases ys with
      | nil => exact absurd heq (arrayBody_ne (hf x List.mem_cons_self) _ _)
      | cons y ys =>
        rw [List.map_map, List.map_map] at heq
        exact join_append_inj hagree (stop_bracket _ _) (stop_bracket _ _) heq
  exact ⟨hbody.1, lastComma_append_inj hbody.2⟩

end ObjectModel
