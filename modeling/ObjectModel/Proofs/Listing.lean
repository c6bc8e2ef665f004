import ObjectModel.Proofs.IteratorProgress
import ObjectModel.Proofs.Members

/-!
# Iterations over listed keys

An iteration over an object walks over keys that were listed when it was made (`Listing`): the
positions of an array, or names.  A position of an array counts whatever stands there, a name while
it is an own property (`Heap.counts`).

A step comes to the first listed key from its cursor on that counts at that time
(`Machine.ahead?`), moves past it, and only then reads the property, if values are asked for.  What
it reports is the listed key, with the value of that read (`Listing.Delivers`,
`Engine.delivers_of_advance`).
-/

namespace ObjectModel

/-! ## Listed keys -/

/-- The listed keys of an object, each with the value that stands for it, and whether these values
are given alone or paired with those of the properties. -/
structure Listing where
  object : Ref
  keys : List (Key × Value)
  keysOnly : Bool

/-- The positions of an array. -/
def positionsBelow (length : Nat) : List (Key × Value) :=
  (List.range length).map fun i => (.index i, .ofNat i)

/-- Keys that stand for themselves. -/
def namedKeys (ks : List Key) : List (Key × Value) := ks.map fun k => (k, k.toValue)

/-- A listed key of an array counts always, that of another object if it is an own property. -/
def Heap.counts (h : Heap) (o : Ref) (k : Key) : Bool :=
  (h.object o).isArray || ((h.object o).ownDescriptor k).isSome

/-- The listed keys with those left out that do not count. -/
def Listing.standing (L : Listing) (h : Heap) : List (Option Element) :=
  L.keys.map fun e => if h.counts L.object e.1 then some (.value e.2) else none

/-- The source of an iterator over listed keys. -/
inductive Heap.Lists (h : Heap) : Listing → IterationSource → Prop where
  | positions {o : Ref} (length : Nat) (harray : (h.object o).isArray = true) :
      Lists h ⟨o, positionsBelow length, true⟩ (.arrayKeys length)
  | elements {o : Ref} (length : Nat) (hlength : length ≤ Number.maxWord)
      (harray : (h.object o).isArray = true) :
      Lists h ⟨o, positionsBelow length, false⟩ (.arrayEntries o length)
  | names {o : Ref} (ks : Array Key) (ho : (h.object o).Ordinary) :
      Lists h ⟨o, namedKeys ks.toList, true⟩ (.objectKeys o ks)
  | entries {o : Ref} (ks : Array Key) (ho : (h.object o).Ordinary) :
      Lists h ⟨o, namedKeys ks.toList, false⟩ (.objectEntries o ks)

/-- The position of the listed key that an iterator comes to next. -/
def Machine.ahead? (m : Machine) (L : Listing) (r : Ref) : Option Nat :=
  match m.heap.kind r with
  | .iterator _ cursor => cursor.nextSlot? (L.standing m.heap)
  | _ => none

/-- What is given at a position: the value that stands for the key, or a pair of it and the value
of the property. -/
def Listing.give (L : Listing) (eng : Engine) (position : Nat) : Run (Option (Nat × Value)) :=
  match L.keys[position]? with
  | none => pure none
  | some (k, label) =>
    if L.keysOnly then pure (some (position, label))
    else do
      let v ← eng.get L.object k
      return some (position, ← Engine.newPair label v)

/-- What a step of an iterator over listed keys has done when it gives its result.  It has moved its
cursor past the next key that counts, or to the end, then read the property if pairs are asked for,
and then made the objects that it reports by. -/
inductive Listing.Delivers (L : Listing) (eng : Engine) (r : Ref) (m : Machine) (result : Ref)
    (m' : Machine) : Prop where
  | finished (hnext : m.ahead? L r = none) (hgrown : (m.moved r .exhausted).Grown m')
      (hreports : m'.heap.Reports result none)
  | key {q : Nat} {k : Key} {label : Value} (hnext : m.ahead? L r = some q)
      (hkey : L.keys[q]? = some (k, label)) (honly : L.keysOnly = true)
      (hgrown : (m.moved r (.active (q + 1))).Grown m')
      (hreports : m'.heap.Reports result (some (.value label)))
  | entry {q : Nat} {k : Key} {label v : Value} {m₂ : Machine} (hnext : m.ahead? L r = some q)
      (hkey : L.keys[q]? = some (k, label)) (honly : L.keysOnly = false)
      (hread : eng.get L.object k (m.moved r (.active (q + 1))) = .ok v m₂)
      (hgrown : m₂.Grown m') (hreports : m'.heap.Reports result (some (.pair label v)))

section Standing

variable {L : Listing} {h h' : Heap} {source : IterationSource} {i length : Nat}

theorem getElem?_positionsBelow :
    (positionsBelow length)[i]? = if i < length then some (.index i, .ofNat i) else none := by
  unfold positionsBelow
  rw [List.getElem?_map]
  split
  · next hi => rw [List.getElem?_range hi, Option.map_some]
  · next hi => rw [List.getElem?_eq_none (by simpa using hi), Option.map_none]

theorem getElem?_namedKeys {ks : List Key} :
    (namedKeys ks)[i]? = ks[i]?.map fun k => (k, k.toValue) := List.getElem?_map

theorem Listing.getElem?_standing :
    (L.standing h)[i]? =
      L.keys[i]?.map fun e => if h.counts L.object e.1 then some (.value e.2) else none :=
  List.getElem?_map

/-- What stands at a position is a listed key that counts. -/
theorem Listing.standing_eq_some {e : Element} (he : (L.standing h)[i]? = some (some e)) :
    ∃ k label, L.keys[i]? = some (k, label) ∧ h.counts L.object k = true := by
  rw [getElem?_standing] at he
  obtain ⟨⟨k, label⟩, hkey, he⟩ := Option.map_eq_some_iff.1 he
  refine ⟨k, label, hkey, ?_⟩
  by_contra hcounts
  rw [if_neg hcounts] at he
  cases he

theorem Listing.standing_of_counts {k : Key} {label : Value} (hkey : L.keys[i]? = some (k, label))
    (hcounts : h.counts L.object k = true) :
    (L.standing h)[i]? = some (some (.value label)) := by
  rw [getElem?_standing, hkey, Option.map_some, if_pos hcounts]

/-- Only the object itself matters. -/
theorem Listing.standing_congr (hobject : h'.object L.object = h.object L.object) :
    L.standing h' = L.standing h := by
  unfold standing Heap.counts
  rw [hobject]

theorem Heap.counts_of_isArray {o : Ref} (harray : (h.object o).isArray = true) (k : Key) :
    h.counts o k = true := by
  rw [counts, harray, Bool.true_or]

theorem Heap.counts_of_ordinary {o : Ref} (ho : (h.object o).Ordinary) (k : Key) :
    h.counts o k = ((h.object o).ownDescriptor k).isSome := by
  rw [counts, ho.2, Bool.false_or]

namespace Heap.Lists

/-- Positions and names are those of one object as long as that is an array or is not. -/
theorem of_onward {m m' : Machine} (hL : m.heap.Lists L source) (hlive : L.object.index < m.size)
    (h : m.Onward m') : m'.heap.Lists L source := by
  have honward := h.kinds L.object hlive
  have hordinary (ho : (m.heap.object L.object).Ordinary) :
      (m'.heap.object L.object).Ordinary := by
    refine ⟨?_, honward.isArray.trans ho.2⟩
    rcases honward.proxy_cases with hkind | ⟨-, hproxy⟩
    · have hproxy := ho.1
      unfold Object.isProxy at hproxy ⊢
      rwa [hkind]
    · exact hproxy
  cases hL with
  | positions length harray => exact .positions length (honward.isArray.trans harray)
  | elements length hlength harray =>
    exact .elements length hlength (honward.isArray.trans harray)
  | names ks ho => exact .names ks (hordinary ho)
  | entries ks ho => exact .entries ks (hordinary ho)

/-- Only the object itself matters. -/
theorem congr (hL : h.Lists L source) (hobject : h'.object L.object = h.object L.object) :
    h'.Lists L source := by
  cases hL with
  | positions length harray => exact .positions length (hobject ▸ harray)
  | elements length hlength harray => exact .elements length hlength (hobject ▸ harray)
  | names ks ho => exact .names ks (hobject ▸ ho)
  | entries ks ho => exact .entries ks (hobject ▸ ho)

/-- The source tells whether the object is an array. -/
theorem isArray_iff (hL : h.Lists L source) :
    (h.object L.object).isArray = true ↔
      ∃ length, source = .arrayKeys length ∨ source = .arrayEntries L.object length := by
  cases hL with
  | positions length harray => simp [harray]
  | elements length hlength harray => simp [harray]
  | names ks ho => simp [ho.2]
  | entries ks ho => simp [ho.2]

theorem ne_arrayValues (hL : h.Lists L source) (array : Ref) : source ≠ .arrayValues array := by
  rintro rfl
  cases hL

/-- A key that does not count is passed over; there are none where one step cannot go on. -/
theorem no_gap (hL : h.Lists L source) (hi : h.skippable source ≤ i) :
    (L.standing h)[i]? ≠ some none := by
  intro hgap
  rw [Listing.getElem?_standing] at hgap
  have harrayed {o : Ref} {length : Nat} (harray : (h.object o).isArray = true)
      (hgap : ((positionsBelow length)[i]?.map fun e =>
        if h.counts o e.1 then some (Element.value e.2) else none) = some none) : False := by
    obtain ⟨e, -, he⟩ := Option.map_eq_some_iff.1 hgap
    rw [if_pos (counts_of_isArray harray e.1)] at he
    cases he
  have hnamed {o : Ref} {ks : Array Key} (hi : ks.size ≤ i)
      (hgap : ((namedKeys ks.toList)[i]?.map fun e =>
        if h.counts o e.1 then some (Element.value e.2) else none) = some none) : False := by
    rw [getElem?_namedKeys, List.getElem?_eq_none (by simpa using hi)] at hgap
    cases hgap
  cases hL with
  | positions length harray => exact harrayed harray hgap
  | elements length _ harray => exact harrayed harray hgap
  | names ks _ => exact hnamed hi hgap
  | entries ks _ => exact hnamed hi hgap

end Heap.Lists

end Standing

/-! ## Taking and delivering a position -/

theorem engine_getOwnProperty {n : Nat} {m : Machine} {o : Ref} {k : Key}
    (ho : (m.heap.object o).isProxy = false) :
    (engine (n + 1)).getOwnProperty o k m = .ok ((m.heap.object o).ownDescriptor k) m :=
  Run.kind_bind_of_not_proxy ho _ _

theorem engine_hasOwnProperty {n : Nat} {m : Machine} {o : Ref} {k : Key}
    (ho : (m.heap.object o).isProxy = false) :
    (engine (n + 1)).hasOwnProperty o k m =
      .ok ((m.heap.object o).ownDescriptor k).isSome m := by
  have hnone : (engine (n + 1)).proxyHasOwn? o k m = .ok none m :=
    Run.kind_bind_of_not_proxy ho _ _
  rw [Engine.hasOwnProperty, Run.bind_ok hnone]
  exact Run.bind_ok (engine_getOwnProperty ho)

theorem Machine.object_moved_self {m : Machine} {r : Ref} {source : IterationSource}
    {cursor : Cursor} (hkind : m.heap.kind r = .iterator source cursor) (cursor' : Cursor) :
    (m.moved r cursor').heap.object r =
      { m.heap.object r with kind := .iterator source cursor' } := by
  have hlive : r.index < m.heap.objects.size := Engine.live_of_iterator hkind
  show (Run.final (Engine.moveCursor r cursor' m)).heap.object r = _
  rw [Engine.moveCursor_apply, hkind]
  show (m.heap.modify r _).object r = _
  rw [Heap.object_modify, if_pos ⟨rfl, hlive⟩]

/-- A cursor that is moved to where it is stays there. -/
theorem Machine.moved_self {m : Machine} {r : Ref} {source : IterationSource} {cursor : Cursor}
    (hkind : m.heap.kind r = .iterator source cursor) : m.moved r cursor = m := by
  have hkind' : (m.heap.object r).kind = .iterator source cursor := hkind
  show Run.final (Engine.moveCursor r cursor m) = m
  rw [Engine.moveCursor_apply, hkind]
  show m.withHeap (m.heap.modify r fun o => { o with kind := .iterator source cursor }) = m
  rw [Heap.modify_congr (g := fun o => o) (by rw [← hkind']), Heap.modify_id]
  rfl

namespace Engine

variable {m : Machine} {r : Ref} {L : Listing} {source : IterationSource} {cursor : Cursor}
  {position n : Nat}

/-- One round over listed keys. -/
theorem handOutWithin_listing (hkind : m.heap.kind r = .iterator source cursor)
    (hL : m.heap.Lists L source) (hne : L.object ≠ r)
    (hposition : cursor.position? = some position) (fuel : Nat) :
    (engine (n + 1)).handOutWithin r (fuel + 1) m =
      match (L.standing m.heap)[position]? with
      | none => .ok none (m.moved r .exhausted)
      | some none => (engine (n + 1)).handOutWithin r fuel (m.moved r (.active (position + 1)))
      | some (some _) => L.give (engine (n + 1)) position (m.moved r (.active (position + 1))) := by
  have htake := take_apply (engine (n + 1)) hkind hL.ne_arrayValues hposition
  have hown (ho : (m.heap.object L.object).Ordinary) (k : Key) :
      (engine (n + 1)).hasOwnProperty L.object k (m.moved r (.active (position + 1))) =
        .ok (m.heap.counts L.object k) (m.moved r (.active (position + 1))) := by
    have hobject := Machine.object_moved hne m (.active (position + 1))
    rw [engine_hasOwnProperty (by rw [hobject]; exact ho.1), hobject, Heap.counts_of_ordinary ho]
  rw [handOutWithin, Run.bind_ok htake, Listing.getElem?_standing]
  cases hL with
  | positions length harray =>
    simp only [getElem?_positionsBelow, Heap.elementAt, Listing.give]
    by_cases hlt : position < length
    · simp only [if_pos hlt, Option.map_some, Heap.counts_of_isArray harray, if_true]
      rfl
    · simp only [if_neg hlt, Option.map_none]
      rfl
  | elements length hlength harray =>
    simp only [getElem?_positionsBelow, Heap.elementAt, Listing.give]
    by_cases hlt : position < length
    · have hkey : Key.ofPosition position = .index position := by
        rw [Key.ofPosition, Nat.mod_eq_of_lt (by omega)]
      simp only [if_pos hlt, Option.map_some, Heap.counts_of_isArray harray, if_true, taken,
        cursorPast, deliver, hkey, bind_assoc, pure_bind]
      rfl
    · simp only [if_neg hlt, Option.map_none]
      rfl
  | names ks ho =>
    simp only [getElem?_namedKeys, Heap.elementAt, Listing.give, Array.getElem?_toList]
    cases hkey : ks[position]? with
    | none => rfl
    | some k =>
      simp only [Option.elim_some, Option.map_some, taken, cursorPast, deliver, bind_assoc]
      rw [Run.bind_ok (hown ho k)]
      cases m.heap.counts _ k <;> rfl
  | entries ks ho =>
    simp only [getElem?_namedKeys, Heap.elementAt, Listing.give, Array.getElem?_toList]
    cases hkey : ks[position]? with
    | none => rfl
    | some k =>
      simp only [Option.elim_some, Option.map_some, taken, cursorPast, deliver, bind_assoc]
      rw [Run.bind_ok (hown ho k)]
      cases m.heap.counts _ k with
      | false => rfl
      | true =>
        simp only [Bool.not_true, Bool.false_eq_true, if_false, if_true, bind_assoc, pure_bind]

/-- **A step over listed keys goes to the first one that counts.** -/
theorem handOutWithin_first (hkind : m.heap.kind r = .iterator source cursor)
    (hL : m.heap.Lists L source) (hne : L.object ≠ r)
    (hposition : cursor.position? = some position) {fuel : Nat}
    (hfuel : ∀ i, position + fuel ≤ i → (L.standing m.heap)[i]? ≠ some none) :
    (engine (n + 1)).handOutWithin r (fuel + 1) m =
      match nextSlot? (L.standing m.heap) position with
      | none => .ok none (m.moved r .exhausted)
      | some q => L.give (engine (n + 1)) q (m.moved r (.active (q + 1))) := by
  induction fuel generalizing m cursor position with
  | zero =>
    rw [handOutWithin_listing hkind hL hne hposition]
    cases hcell : (L.standing m.heap)[position]? with
    | none => rw [nextSlot?_finished hcell]
    | some cell =>
      cases cell with
      | none => exact absurd hcell (hfuel position (Nat.le_refl _))
      | some e => rw [nextSlot?_member hcell]
  | succ fuel ih =>
    rw [handOutWithin_listing hkind hL hne hposition]
    cases hcell : (L.standing m.heap)[position]? with
    | none => rw [nextSlot?_finished hcell]
    | some cell =>
      cases cell with
      | some e => rw [nextSlot?_member hcell]
      | none =>
        let m₁ := m.moved r (.active (position + 1))
        have hkind₁ : m₁.heap.kind r = .iterator source (.active (position + 1)) :=
          kind_moveCursor hkind _
        have hobject : m₁.heap.object L.object = m.heap.object L.object :=
          Machine.object_moved hne m _
        have hstanding := Listing.standing_congr hobject
        have hrest := ih hkind₁ (hL.congr hobject) rfl (by
          intro i hi
          rw [hstanding]
          exact hfuel i (by omega))
        rw [hstanding] at hrest
        simp only [m₁, Machine.moved_moved] at hrest
        rw [nextSlot?_hole hcell]
        exact hrest

theorem handOut_listing (hkind : m.heap.kind r = .iterator source cursor)
    (hL : m.heap.Lists L source) (hne : L.object ≠ r) :
    (engine (n + 1)).handOut r m =
      match m.ahead? L r with
      | none => .ok none (m.moved r .exhausted)
      | some q => L.give (engine (n + 1)) q (m.moved r (.active (q + 1))) := by
  simp only [Machine.ahead?, hkind, Cursor.nextSlot?]
  cases hposition : cursor.position? with
  | none =>
    obtain rfl := eq_exhausted hposition
    rw [handOut_exhausted hkind, Machine.moved_self hkind]
    rfl
  | some position =>
    rw [handOut_apply hkind]
    refine handOutWithin_first hkind hL hne hposition fun i hi => hL.no_gap ?_
    omega

/-- The position that a step comes to is that of a listed key that counts. -/
theorem exists_key_of_ahead? {q : Nat} (hnext : m.ahead? L r = some q) :
    ∃ k label, L.keys[q]? = some (k, label) ∧ m.heap.counts L.object k = true := by
  unfold Machine.ahead? at hnext
  split at hnext
  · obtain ⟨position, -, hnext⟩ := Option.bind_eq_some_iff.1 hnext
    obtain ⟨-, ⟨e, he⟩, -⟩ := nextSlot?_eq_some hnext
    exact Listing.standing_eq_some he
  · cases hnext

section Step

variable (hkind : m.heap.kind r = .iterator source cursor) (hL : m.heap.Lists L source)
  (hne : L.object ≠ r)

include hkind hL hne

/-- **What a step over listed keys does.** -/
theorem delivers_of_advance {result : Ref} {m' : Machine}
    (h : (engine (n + 1)).advance r m = .ok result m') :
    L.Delivers (engine (n + 1)) r m result m' := by
  rw [advance_eq, Run.bind_apply, handOut_listing hkind hL hne] at h
  cases hnext : m.ahead? L r with
  | none =>
    rw [hnext] at h
    obtain ⟨m₁, hresult, hgrown, hobject⟩ := resultFor_apply none (m.moved r .exhausted)
    cases h.symm.trans hresult
    exact .finished hnext hgrown hobject
  | some q =>
    obtain ⟨k, label, hkey, -⟩ := exists_key_of_ahead? hnext
    rw [hnext] at h
    simp only [Listing.give, hkey] at h
    cases honly : L.keysOnly with
    | true =>
      rw [honly] at h
      obtain ⟨m₁, hresult, hgrown, hobject⟩ :=
        resultFor_apply (some (q, label)) (m.moved r (.active (q + 1)))
      cases h.symm.trans hresult
      exact .key hnext hkey honly hgrown hobject
    | false =>
      rw [honly, ← Run.bind_apply] at h
      simp only [Bool.false_eq_true, if_false, bind_assoc] at h
      obtain ⟨v, m₂, hread, h⟩ := Run.of_bind_ok h
      obtain ⟨result', m₁, hgiven, hgrown, hreports⟩ :=
        given_reports (e := .pair label v) (.inr ⟨label, v, rfl⟩) q m₂
      simp only [Element.given, map_eq_pure_bind, bind_assoc] at hgiven
      cases h.symm.trans hgiven
      exact .entry hnext hkey honly hread hgrown hreports

/-- **A step over listed keys returns if the read that it makes returns.** -/
theorem advance_returns
    (hread : ∀ q k label, m.ahead? L r = some q → L.keys[q]? = some (k, label) →
      L.keysOnly = false → ∃ v m₂,
        (engine (n + 1)).get L.object k (m.moved r (.active (q + 1))) = .ok v m₂) :
    ∃ result m', (engine (n + 1)).advance r m = .ok result m' := by
  rw [advance_eq, Run.bind_apply, handOut_listing hkind hL hne]
  cases hnext : m.ahead? L r with
  | none =>
    obtain ⟨m', hresult, -⟩ := resultFor_apply none (m.moved r .exhausted)
    exact ⟨_, m', hresult⟩
  | some q =>
    obtain ⟨k, label, hkey, -⟩ := exists_key_of_ahead? hnext
    simp only [Listing.give, hkey]
    cases honly : L.keysOnly with
    | true =>
      obtain ⟨m', hresult, -⟩ := resultFor_apply (some (q, label)) (m.moved r (.active (q + 1)))
      exact ⟨_, m', hresult⟩
    | false =>
      obtain ⟨v, m₂, hget⟩ := hread q k label hnext hkey honly
      obtain ⟨result, m', hgiven, -⟩ :=
        given_reports (e := .pair label v) (.inr ⟨label, v, rfl⟩) q m₂
      simp only [Element.given, map_eq_pure_bind, bind_assoc] at hgiven
      refine ⟨result, m', ?_⟩
      rw [← Run.bind_apply]
      simp only [Bool.false_eq_true, if_false, bind_assoc]
      rw [Run.bind_ok hget]
      exact hgiven

end Step

end Engine

end ObjectModel
