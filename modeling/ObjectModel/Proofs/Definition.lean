import ObjectModel.Proofs.ArrayLength
import ObjectModel.Proofs.TableHistory

/-!
# What a definition does

A definition asks for some attributes of a property.  `Descriptor.applied` says what the property is
afterwards: it has the attributes that are mentioned, and the others are those it had, or their
defaults if it is new or of the other kind.  `Object.Accepts` says when the definition is accepted:
a new property if the object takes one, a configurable property always, and any other one if it
persists.

An ordinary object refuses a definition and stays as it is, or applies it, keeps everything else and
the order of its keys, and then accepts the same definition without any change
(`definition_refused_or_applied`).

A new object of given properties, and a new array of given values, are what definitions by the
internal method make of an empty one (`engine_objectOf`, `engine_arrayOf`).
-/

namespace ObjectModel

/-! ## Descriptors -/

namespace Descriptor

/-- The fields of a descriptor, and for the absent ones those of another. -/
def overlay (d base : Descriptor) : Descriptor where
  value := d.value.or base.value
  writable := d.writable.or base.writable
  get := d.get.or base.get
  set := d.set.or base.set
  enumerable := d.enumerable.or base.enumerable
  configurable := d.configurable.or base.configurable

/-- The fields that do not belong to one kind of property. -/
def shared (d : Descriptor) : Descriptor :=
  { enumerable := d.enumerable, configurable := d.configurable }

/-- What a property is after a definition.  A new one has the defaults for what is not mentioned; one
that keeps its kind keeps that; and one of the other kind keeps only what is shared. -/
def applied (d : Descriptor) : Option Descriptor → Descriptor
  | none => d.complete
  | some c =>
    if d.isGeneric || d.isAccessor == c.isAccessor then d.overlay c
    else (d.overlay c.shared).complete

/-- Every field of the first descriptor is the same in the second. -/
structure Within (d e : Descriptor) : Prop where
  value : ∀ v, d.value = some v → e.value = some v
  writable : ∀ b, d.writable = some b → e.writable = some b
  get : ∀ f, d.get = some f → e.get = some f
  set : ∀ f, d.set = some f → e.set = some f
  enumerable : ∀ b, d.enumerable = some b → e.enumerable = some b
  configurable : ∀ b, d.configurable = some b → e.configurable = some b

variable {d : Descriptor}

theorem within_overlay (d base : Descriptor) : d.Within (d.overlay base) := by
  constructor <;> intro x hx <;> simp [overlay, hx]

theorem within_complete (d : Descriptor) : d.Within d.complete := by
  constructor <;> intro x hx <;> unfold complete <;> split <;> simp [hx]

theorem Within.trans {d e f : Descriptor} (h : d.Within e) (h' : e.Within f) : d.Within f :=
  ⟨fun v hv => h'.value v (h.value v hv), fun b hb => h'.writable b (h.writable b hb),
    fun g hg => h'.get g (h.get g hg), fun s hs => h'.set s (h.set s hs),
    fun b hb => h'.enumerable b (h.enumerable b hb),
    fun b hb => h'.configurable b (h.configurable b hb)⟩

/-- What is mentioned is applied. -/
theorem within_applied (d : Descriptor) (current : Option Descriptor) :
    d.Within (d.applied current) := by
  cases current with
  | none => exact d.within_complete
  | some c =>
    rw [applied]
    split
    · exact d.within_overlay c
    · exact (d.within_overlay _).trans (within_complete _)

theorem applied_same {c : Descriptor} (h : d.isGeneric = true ∨ d.isAccessor = c.isAccessor) :
    d.applied (some c) = d.overlay c := if_pos (by simpa using h)

theorem applied_turned {c : Descriptor} (hgeneric : d.isGeneric = false)
    (h : d.isAccessor ≠ c.isAccessor) : d.applied (some c) = (d.overlay c.shared).complete :=
  if_neg (by simpa [hgeneric] using h)

/-- A consistent descriptor has no field of one of the kinds. -/
theorem kind_cases (hd : d.isConsistent = true) :
    (d.get = none ∧ d.set = none ∧ d.isAccessor = false) ∨
      (d.value = none ∧ d.writable = none ∧ d.isData = false) ∧ d.isAccessor = true := by
  cases haccessor : d.isAccessor with
  | false =>
    have habsent := haccessor
    simp only [isAccessor, Bool.or_eq_false_iff, Option.isSome_eq_false_iff,
      Option.isNone_iff_eq_none] at habsent
    exact .inl ⟨habsent.1, habsent.2, rfl⟩
  | true =>
    have hdata : d.isData = false := by simpa [isConsistent, haccessor] using hd
    have habsent := hdata
    simp only [isData, Bool.or_eq_false_iff, Option.isSome_eq_false_iff,
      Option.isNone_iff_eq_none] at habsent
    exact .inr ⟨⟨habsent.1, habsent.2, hdata⟩, rfl⟩

theorem complete_of_plain (h : d.isAccessor = false) :
    d.complete = { d with
      value := some (d.value.getD .undefined), writable := some (d.writable.getD false)
      enumerable := some (d.enumerable.getD false)
      configurable := some (d.configurable.getD false) } := by
  have hplain : (d.isGeneric || d.isData) = true := by
    cases hdata : d.isData <;> simp [isGeneric, h, hdata]
  simp only [complete, hplain, if_true]

theorem complete_of_accessor (h : d.isAccessor = true) (hdata : d.isData = false) :
    d.complete = { d with
      get := some (d.get.getD none), set := some (d.set.getD none)
      enumerable := some (d.enumerable.getD false)
      configurable := some (d.configurable.getD false) } := by
  have hplain : (d.isGeneric || d.isData) = false := by simp [isGeneric, h, hdata]
  simp only [complete, hplain, Bool.false_eq_true, if_false]

end Descriptor

/-! ## Stored properties -/

namespace Property

variable {p : Property} {d : Descriptor}

/-- A new property has the defaults for what is not mentioned. -/
theorem toDescriptor_ofDescriptor (hd : d.isConsistent = true) :
    (ofDescriptor d).toDescriptor = d.applied none := by
  rcases Descriptor.kind_cases hd with
    ⟨hget, hset, haccessor⟩ | ⟨⟨hvalue, hwritable, hdata⟩, haccessor⟩
  · rw [Descriptor.applied, Descriptor.complete_of_plain haccessor]
    simp [ofDescriptor, toDescriptor, haccessor, hget, hset]
  · rw [Descriptor.applied, Descriptor.complete_of_accessor haccessor hdata]
    simp [ofDescriptor, toDescriptor, haccessor, hvalue, hwritable]

/-- **A property becomes what is applied to it.** -/
theorem toDescriptor_merge (hd : d.isConsistent = true) :
    (p.merge d).toDescriptor = d.applied (some p.toDescriptor) := by
  obtain ⟨content, e, c⟩ := p
  cases content with
  | data v w =>
    rcases Descriptor.kind_cases hd with
      ⟨hget, hset, haccessor⟩ | ⟨⟨hvalue, hwritable, hdata⟩, haccessor⟩
    · rw [Descriptor.applied_same (.inr haccessor)]
      simp [merge, toDescriptor, Descriptor.overlay, haccessor, hget, hset]
    · have hturned : d.isAccessor ≠ (toDescriptor ⟨.data v w, e, c⟩).isAccessor := by
        rw [haccessor]
        exact Bool.noConfusion
      rw [Descriptor.applied_turned (by simp [Descriptor.isGeneric, haccessor]) hturned,
        Descriptor.complete_of_accessor]
      · simp [merge, toDescriptor, Descriptor.overlay, Descriptor.shared, haccessor, hvalue,
          hwritable]
      · simpa [Descriptor.isAccessor, Descriptor.overlay, Descriptor.shared] using haccessor
      · simp [Descriptor.isData, Descriptor.overlay, Descriptor.shared, hvalue, hwritable]
  | accessor g s =>
    rcases Descriptor.kind_cases hd with
      ⟨hget, hset, haccessor⟩ | ⟨⟨hvalue, hwritable, hdata⟩, haccessor⟩
    · cases hdata : d.isData with
      | false =>
        have habsent := hdata
        simp only [Descriptor.isData, Bool.or_eq_false_iff, Option.isSome_eq_false_iff,
          Option.isNone_iff_eq_none] at habsent
        rw [Descriptor.applied_same (.inl (by simp [Descriptor.isGeneric, haccessor, hdata]))]
        simp [merge, toDescriptor, Descriptor.overlay, hdata, hget, hset, habsent]
      | true =>
        have hturned : d.isAccessor ≠ (toDescriptor ⟨.accessor g s, e, c⟩).isAccessor := by
          rw [haccessor]
          exact Bool.noConfusion
        rw [Descriptor.applied_turned (by simp [Descriptor.isGeneric, hdata]) hturned,
          Descriptor.complete_of_plain]
        · simp [merge, toDescriptor, Descriptor.overlay, Descriptor.shared, hdata, hget, hset]
        · simp [Descriptor.isAccessor, Descriptor.overlay, Descriptor.shared, hget, hset]
    · rw [Descriptor.applied_same (.inr haccessor)]
      simp [merge, toDescriptor, Descriptor.overlay, hdata, hvalue, hwritable]

theorem getD_getD {α : Type} (o : Option α) (a : α) : o.getD (o.getD a) = o.getD a := by
  cases o <;> rfl

/-- What was applied can be applied again without any change. -/
theorem merge_merge (hd : d.isConsistent = true) : (p.merge d).merge d = p.merge d := by
  obtain ⟨content, e, c⟩ := p
  rcases Descriptor.kind_cases hd with ⟨-, -, haccessor⟩ | ⟨⟨-, -, hdata⟩, haccessor⟩
  · cases content with
    | data v w => simp [merge, haccessor, getD_getD]
    | accessor g s => cases hdata : d.isData <;> simp [merge, haccessor, hdata, getD_getD]
  · cases content <;> simp [merge, haccessor, hdata, getD_getD]

theorem merge_ofDescriptor (hd : d.isConsistent = true) :
    (ofDescriptor d).merge d = ofDescriptor d := by
  rcases Descriptor.kind_cases hd with ⟨-, -, haccessor⟩ | ⟨⟨-, -, hdata⟩, haccessor⟩
  · simp [merge, ofDescriptor, haccessor, getD_getD]
  · simp [merge, ofDescriptor, haccessor, hdata, getD_getD]

theorem enumerable_toDescriptor (p : Property) : p.toDescriptor.enumerable = some p.enumerable := by
  unfold toDescriptor
  split <;> rfl

theorem mentions_of_getD_eq {α : Type} [BEq α] [LawfulBEq α] {o : Option α} {a : α}
    (h : o.getD a = a) : (o.isNone || o == some a) = true := by
  cases o <;> simp_all

theorem ne_true_of_getD_eq {o : Option Bool} {b : Bool} (h : o.getD b = false) :
    (o != some true) = true := by
  rcases o with _ | _ | _ <;> simp_all

/-- A property through which it persists admits a definition. -/
theorem admits_of_persists (h : p.toDescriptor.Persists (p.merge d).toDescriptor) :
    p.admits d = true := by
  have hconfigurable : (d.configurable != some true) = true :=
    ne_true_of_getD_eq (Option.some.inj ((configurable_toDescriptor _).symm.trans h.configurable))
  have henumerable : (d.enumerable.isNone || d.enumerable == some p.enumerable) = true := by
    have hsame := h.enumerable
    rw [enumerable_toDescriptor, enumerable_toDescriptor] at hsame
    exact mentions_of_getD_eq (Option.some.inj hsame)
  obtain ⟨content, e, c⟩ := p
  cases content with
  | data v w =>
    have haccessor : d.isAccessor = false := by
      cases haccessor : d.isAccessor with
      | false => rfl
      | true =>
        have hdata := h.isData
        simp [merge, toDescriptor, haccessor, Descriptor.isData] at hdata
    have hcontent : (w || (d.writable != some true && (d.value.isNone || d.value == some v))) =
        true := by
      cases w with
      | true => rfl
      | false =>
        obtain ⟨hwritable, hvalue⟩ := h.readOnly rfl
        simp only [merge, toDescriptor, haccessor, Bool.false_eq_true, if_false] at hwritable hvalue
        rw [ne_true_of_getD_eq (Option.some.inj hwritable),
          mentions_of_getD_eq (Option.some.inj hvalue)]
        rfl
    simp [admits, isAccessor, hconfigurable, henumerable, haccessor, hcontent]
  | accessor g s =>
    have hdata : d.isData = false := by
      cases hdata : d.isData with
      | false => rfl
      | true =>
        have hkind := h.isData
        simp only [merge, toDescriptor, hdata, if_true] at hkind
        cases hkind
    have hkind : (d.isGeneric || d.isAccessor == true) = true := by
      cases haccessor : d.isAccessor <;> simp [Descriptor.isGeneric, haccessor, hdata]
    have hget := h.get
    have hset := h.set
    simp only [merge, toDescriptor, hdata, Bool.false_eq_true, if_false] at hget hset
    have hget := mentions_of_getD_eq (Option.some.inj hget)
    have hset := mentions_of_getD_eq (Option.some.inj hset)
    simp only [admits, isAccessor, hconfigurable, henumerable, hkind, hget, hset, Bool.and_self,
      Bool.or_true]

/-- **A definition is admitted exactly if the property is configurable or persists.** -/
theorem admits_iff (hd : d.isConsistent = true) :
    p.admits d = true ↔
      p.configurable = true ∨ p.toDescriptor.Persists (p.merge d).toDescriptor := by
  constructor
  · intro hadmits
    cases hp : p.configurable with
    | true => exact .inl rfl
    | false => exact .inr (persists_merge hp hadmits hd)
  · rintro (hp | hpersists)
    · simp [admits, hp]
    · exact admits_of_persists hpersists

/-- A definition that would change nothing is admitted. -/
theorem admits_of_merge_eq (hd : d.isConsistent = true) (h : p.merge d = p) :
    p.admits d = true := by
  rw [admits_iff hd, h]
  cases hp : p.configurable with
  | true => exact .inl rfl
  | false => exact .inr (.refl ((configurable_toDescriptor p).trans (congrArg some hp)))

end Property

/-! ## The order of keys -/

/-- An entry that is there is inserted without any change. -/
theorem Slots.insert_self {κ β : Type} [Ord κ] [Std.TransOrd κ] [Std.LawfulEqOrd κ]
    {s : Slots κ β} {k : κ} {b : β} (h : s.find? k = some b) : s.insert k b = s := by
  obtain ⟨i, hi⟩ := find?_eq_some_iff.1 h
  have hindex : s.index[k]? = some i := (s.indexed k i).2 ⟨b, hi⟩
  have hcells : s.cells.setIfInBounds i (some (k, b)) = s.cells := by
    apply Array.ext_getElem?
    intro j
    rw [Array.getElem?_setIfInBounds]
    split
    · next hij =>
      subst hij
      split
      · exact hi.symm
      · next hout => rw [Array.getElem?_eq_none (Nat.le_of_not_lt hout)]
    · rfl
  unfold insert
  split
  · next j hj =>
    cases hindex.symm.trans hj
    simp only [hcells]
  · next hnone =>
    rw [hindex] at hnone
    cases hnone

namespace PropertyTable

variable {t t' : PropertyTable}

/-- Further entries leave the indexes and the other keys in their order. -/
theorem keys_sublist (h : (t.entries.map Prod.fst).Sublist (t'.entries.map Prod.fst)) :
    ((t.indexes.mergeSort (· ≤ ·)).map Key.index).Sublist
        ((t'.indexes.mergeSort (· ≤ ·)).map Key.index) ∧
      (t.names ++ t.symbols).Sublist (t'.names ++ t'.symbols) := by
  have hindexes : t.indexes.Sublist t'.indexes := by
    rw [indexes_eq, indexes_eq]
    exact h.filterMap _
  have hsorted : (t.indexes.mergeSort (· ≤ ·)).Sublist (t'.indexes.mergeSort (· ≤ ·)) := by
    refine List.sublist_of_subperm_of_pairwise (r := (· ≤ ·)) ?_ (List.pairwise_mergeSort' _ _)
      (List.pairwise_mergeSort' _ _)
    exact ((List.mergeSort_perm _ _).subperm.trans hindexes.subperm).trans
      (List.mergeSort_perm _ _).symm.subperm
  exact ⟨hsorted.map _, (h.filter _).append (h.filter _)⟩

theorem entries_insert_sublist (t : PropertyTable) (k : Key) (p : Property) :
    (t.entries.map Prod.fst).Sublist ((t.insert k p).entries.map Prod.fst) := by
  cases hfind : t.find? k with
  | none =>
    rw [Slots.entries_insert_of_not_mem hfind, List.map_append]
    exact List.sublist_append_left _ _
  | some q =>
    have hkeys : (t.insert k p).entries.map Prod.fst = t.entries.map Prod.fst := by
      rw [Slots.entries_insert_of_mem (by rw [hfind]; rfl), List.map_map]
      refine List.map_congr_left fun e _ => ?_
      by_cases he : e.1 = k <;> simp [he]
    rw [hkeys]

end PropertyTable

/-! ## Objects -/

namespace Object

/-- The object accepts the definition of a property: a new one if it takes any, and one that it has
if that is configurable or persists. -/
def Accepts (o : Object) (k : Key) (d : Descriptor) : Prop :=
  match o.ownDescriptor k with
  | none => o.extensible = true
  | some c => c.configurable = some true ∨ c.Persists (d.applied (some c))

/-- The second object is the first with a property described by `e`. -/
structure Redefined (o o' : Object) (k : Key) (e : Descriptor) : Prop where
  own : o'.ownDescriptor k = some e
  others : ∀ k', k' ≠ k → o'.ownDescriptor k' = o.ownDescriptor k'
  ordered : o.ownKeys.Sublist o'.ownKeys
  prototype : o'.prototype = o.prototype
  extensible : o'.extensible = o.extensible
  kind : o'.kind = o.kind

variable {o o' : Object} {k : Key} {d : Descriptor}

/-- Further properties leave the keys in their order. -/
theorem ownKeys_sublist (hkind : o'.kind = o.kind)
    (h : (o.properties.entries.map Prod.fst).Sublist (o'.properties.entries.map Prod.fst)) :
    o.ownKeys.Sublist o'.ownKeys := by
  obtain ⟨hindexes, hrest⟩ := PropertyTable.keys_sublist h
  unfold ownKeys
  rw [hkind]
  split
  · rw [PropertyTable.insertLength_keys, PropertyTable.insertLength_keys]
    exact hindexes.append (hrest.cons_cons _)
  · rw [PropertyTable.keys, PropertyTable.keys, List.append_assoc, List.append_assoc]
    exact hindexes.append hrest

/-- Storing a property, an array's length apart. -/
theorem redefined_insert (hk : o.isArray = true → k ≠ .length) (p : Property) :
    o.Redefined { o with properties := o.properties.insert k p } k p.toDescriptor where
  own := by
    have hown : ownDescriptor { o with properties := o.properties.insert k p } k = _ :=
      ownDescriptor_eq hk
    rw [hown, Slots.find?_insert, if_pos rfl]
    rfl
  others k' hk' := by
    by_cases hlength : o.isArray = true ∧ k' = .length
    · obtain ⟨harray, rfl⟩ := hlength
      obtain ⟨length, writable, hkind⟩ := exists_of_isArray harray
      rw [ownDescriptor_length hkind]
      exact ownDescriptor_length hkind
    · have hstored : o.isArray = true → k' ≠ .length := fun harray heq => hlength ⟨harray, heq⟩
      have hown : ownDescriptor { o with properties := o.properties.insert k p } k' = _ :=
        ownDescriptor_eq hstored
      rw [hown, Slots.find?_insert, if_neg hk', ownDescriptor_eq hstored]
  ordered := ownKeys_sublist rfl (PropertyTable.entries_insert_sublist _ _ _)
  prototype := rfl
  extensible := rfl
  kind := rfl

/-- A definition that is accepted revises the property to what is applied to it. -/
theorem Accepts.revise (h : o.Accepts k d) (hk : o.isArray = true → k ≠ .length)
    (hd : d.isConsistent = true) :
    ∃ p, Property.revise o.extensible (o.properties.find? k) d = some p ∧
      p.toDescriptor = d.applied (o.ownDescriptor k) := by
  rw [Accepts] at h
  rw [ownDescriptor_eq hk] at h ⊢
  cases hfind : o.properties.find? k with
  | none =>
    rw [hfind] at h
    exact ⟨_, if_pos h, Property.toDescriptor_ofDescriptor hd⟩
  | some p =>
    rw [hfind] at h
    have hadmits : p.admits d = true := by
      rw [Property.admits_iff hd, Property.toDescriptor_merge hd]
      simpa [Property.configurable_toDescriptor] using h
    exact ⟨_, if_pos hadmits, Property.toDescriptor_merge hd⟩

/-- **A definition that is accepted is applied.** -/
theorem Accepts.define? (h : o.Accepts k d) (hk : o.isArray = true → k ≠ .length)
    (hd : d.isConsistent = true) :
    ∃ o', o.define? k d = some o' ∧ o.Redefined o' k (d.applied (o.ownDescriptor k)) := by
  obtain ⟨p, hrevise, hp⟩ := h.revise hk hd
  refine ⟨_, congrArg (Option.map _) hrevise, ?_⟩
  rw [← hp]
  exact redefined_insert hk p

/-- A definition that is carried out was accepted. -/
theorem accepts_of_define? (hk : o.isArray = true → k ≠ .length) (hd : d.isConsistent = true)
    (h : o.define? k d = some o') : o.Accepts k d := by
  obtain ⟨q, hrevise, -⟩ := exists_of_define? h
  rw [Accepts, ownDescriptor_eq hk]
  cases hfind : o.properties.find? k with
  | none =>
    simp only [hfind, Property.revise] at hrevise
    split at hrevise
    · next hextensible => exact hextensible
    · cases hrevise
  | some p =>
    simp only [hfind, Property.revise] at hrevise
    split at hrevise
    · next hadmits =>
      rw [Property.admits_iff hd, Property.toDescriptor_merge hd] at hadmits
      simpa [Property.configurable_toDescriptor] using hadmits
    · cases hrevise

/-- **What was defined can be defined again without any change.** -/
theorem define?_again (hd : d.isConsistent = true) (h : o.define? k d = some o') :
    o'.define? k d = some o' := by
  obtain ⟨p, hrevise, rfl⟩ := exists_of_define? h
  have hmerge : p.merge d = p := by
    cases hfind : o.properties.find? k with
    | none =>
      simp only [hfind, Property.revise] at hrevise
      split at hrevise
      · cases hrevise
        exact Property.merge_ofDescriptor hd
      · cases hrevise
    | some q =>
      simp only [hfind, Property.revise] at hrevise
      split at hrevise
      · cases hrevise
        exact Property.merge_merge hd
      · cases hrevise
  have hfind : (o.properties.insert k p).find? k = some p := by rw [Slots.find?_insert, if_pos rfl]
  simp only [define?, hfind, Property.revise, Property.admits_of_merge_eq hd hmerge, if_true, hmerge,
    Slots.insert_self hfind, Option.map_some]

end Object

/-! ## Definitions on ordinary objects -/

/-- **A definition is refused or applied.**  An ordinary object refuses a definition that it does not
accept, and then nothing changes.  Otherwise the property is what is applied to it, with all that the
definition mentions; the other properties, the order of the keys, the prototype and the
extensibility stay, and so does the rest of the machine; and the same definition is carried out
again without any change. -/
theorem definition_refused_or_applied {m : Machine} {o : Ref} (hlive : o.index < m.size)
    (hordinary : (m.heap.object o).Ordinary) {d : Descriptor} (hd : d.isConsistent = true)
    (k : Key) (n : Nat) :
    (¬ (m.heap.object o).Accepts k d ∧
      (engine (n + 1)).defineOwnProperty o k d m = .ok false m) ∨
    (m.heap.object o).Accepts k d ∧ ∃ o' e,
      (engine (n + 1)).defineOwnProperty o k d m = .ok true (m.replace o o') ∧
      (engine (n + 1)).getOwnProperty o k (m.replace o o') = .ok (some e) (m.replace o o') ∧
      e = d.applied ((m.heap.object o).ownDescriptor k) ∧ d.Within e ∧
      (m.heap.object o).Redefined o' k e ∧
      (engine (n + 1)).defineOwnProperty o k d (m.replace o o') = .ok true (m.replace o o') := by
  have hk : (m.heap.object o).isArray = true → k ≠ .length := by simp [hordinary.2]
  have hdefine {m : Machine} (ho : (m.heap.object o).Ordinary) :
      (engine (n + 1)).defineOwnProperty o k d m =
        Engine.reviseObject o (fun a => a.define? k d) m := by
    rw [← hostedEngine_none]
    exact hosted_defineOwnProperty ho d
  by_cases haccepts : (m.heap.object o).Accepts k d
  · obtain ⟨o', hdefined, hredefined⟩ := haccepts.define? hk hd
    have hobject : (m.replace o o').heap.object o = o' := by
      rw [Machine.object_replace hlive, if_pos rfl]
    have hordinary' : ((m.replace o o').heap.object o).Ordinary := by
      rw [hobject]
      exact hordinary.of_kind hredefined.kind
    refine .inr ⟨haccepts, o', _, ?_, ?_, rfl, Descriptor.within_applied _ _, hredefined, ?_⟩
    · rw [hdefine hordinary, Engine.reviseObject_apply, hdefined]
      rfl
    · rw [← hostedEngine_none, hosted_getOwnProperty hordinary'.1, hobject, hredefined.own]
    · rw [hdefine hordinary', Engine.reviseObject_apply, hobject,
        Object.define?_again hd hdefined]
      exact congrArg (EStateM.Result.ok true) (m.replace_replace o o' o')
  · have hrefused : (m.heap.object o).define? k d = none := by
      rw [Option.eq_none_iff_forall_ne_some]
      exact fun o' ho' => haccepts (Object.accepts_of_define? hk hd ho')
    refine .inl ⟨haccepts, ?_⟩
    rw [hdefine hordinary, Engine.reviseObject_apply, hrefused]

/-! ## Properties created one after the other -/

namespace Engine

/-- Creates plain properties one after the other by the internal method of the object. -/
def createAll (eng : Engine) (o : Ref) : List (Key × Value) → Run Unit
  | [] => pure ()
  | (k, v) :: rest => do
    eng.createDataPropertyOrThrow o k v
    createAll eng o rest

/-- A new object whose properties are created one after the other. -/
def objectOf (eng : Engine) (ps : List (Key × Value)) : Run Ref := do
  let o ← newObject (some Intrinsic.objectPrototype.ref)
  eng.createAll o ps
  pure o

/-- A new array whose elements are created one after the other. -/
def arrayOf (eng : Engine) (vs : List Value) : Run Ref := do
  let a ← newOfClass .arrayPrototype (.array 0 true)
  eng.createAll a (vs.zipIdx.map fun (v, i) => (.ofPosition i, v))
  pure a

end Engine

/-- A definition neither makes an array nor unmakes one. -/
theorem Object.isArray_defineStored? {o o' : Object} {k : Key} {d : Descriptor}
    (h : o.defineStored? k d = some o') : o'.isProxy = o.isProxy ∧ o'.isArray = o.isArray := by
  have hdefine (hd : o.define? k d = some o') :
      o'.isProxy = o.isProxy ∧ o'.isArray = o.isArray := by
    unfold isProxy isArray
    rw [kind_define? hd]
    exact ⟨rfl, rfl⟩
  cases k with
  | index i =>
    have h : o.defineElement? i d = some o' := h
    unfold defineElement? at h
    split at h
    · next length writable hkind =>
      split at h
      · cases h
      · obtain ⟨o₁, hdefine₁, rfl⟩ := Option.map_eq_some_iff.1 h
        have hkind₁ := (kind_define? hdefine₁).trans hkind
        split <;> simp [isProxy, isArray, withLength, hkind, hkind₁]
    · exact hdefine h
  | name t => exact hdefine h
  | symbol s => exact hdefine h

section Creating

variable {n : Nat} {m : Machine} {o : Ref} {k : Key}

theorem engine_define_stored (ho : (m.heap.object o).isProxy = false)
    (hk : (m.heap.object o).isArray = true → k ≠ .length) (d : Descriptor) :
    (engine (n + 1)).defineOwnProperty o k d m =
      Engine.reviseObject o (fun a => a.defineStored? k d) m := by
  refine (Run.kind_bind_of_not_proxy ho _ _).trans ?_
  simp only [Engine.ordinaryDefine, Run.bind_apply, Run.kind]
  cases hkind : m.heap.kind o with
  | array size writable =>
    have harray : (m.heap.object o).isArray = true := by
      simp only [Heap.kind] at hkind
      simp [Object.isArray, hkind]
    simp only [hk harray, if_false]
  | _ =>
    have harray : (m.heap.object o).isArray = false := by
      simp only [Heap.kind] at hkind
      simp [Object.isArray, hkind]
    exact Engine.reviseObject_congr (Object.define?_eq_defineStored? harray k d)

/-- **The internal method of an object that is no proxy comes to its stored definitions**, one after
the other. -/
theorem engine_createAll {ps : List (Key × Value)} (ho : (m.heap.object o).isProxy = false)
    (hps : (m.heap.object o).isArray = true → ∀ e ∈ ps, e.1 ≠ .length) :
    (engine (n + 1)).createAll o ps m = Engine.addPlain o ps m := by
  induction ps generalizing m with
  | nil => rfl
  | cons e rest ih =>
    have hdefine := engine_define_stored (n := n) ho (fun h => hps h e List.mem_cons_self)
      (.plain e.2)
    rw [Engine.createAll, Engine.addPlain, Engine.createDataPropertyOrThrow,
      Engine.createDataProperty, bind_assoc, Run.bind_apply, Run.bind_apply, hdefine,
      Engine.reviseObject_apply]
    cases hstored : (m.heap.object o).defineStored? e.1 (.plain e.2) with
    | none => rfl
    | some a =>
      -- the object stays what it is in all that matters to the next definition
      have hsame : ((m.replace o a).heap.object o).isProxy = (m.heap.object o).isProxy ∧
          ((m.replace o a).heap.object o).isArray = (m.heap.object o).isArray := by
        show (((m.heap.modify o _).object o).isProxy = _ ∧
          ((m.heap.modify o _).object o).isArray = _)
        rw [Heap.object_modify]
        split
        · exact Object.isArray_defineStored? hstored
        · exact ⟨rfl, rfl⟩
      exact ih (m := m.replace o a) (hsame.1.trans ho) fun h e he =>
        hps (hsame.2.symm.trans h) e (List.mem_cons_of_mem _ he)

theorem engine_createAll_new {new : Object} {ps : List (Key × Value)} (hnew : new.isProxy = false)
    (hps : new.isArray = true → ∀ e ∈ ps, e.1 ≠ .length) (n : Nat) (m : Machine) :
    (Run.allocate new >>= fun r => (engine (n + 1)).createAll r ps >>= fun _ => pure r) m =
      (Run.allocate new >>= fun r => Engine.addPlain r ps >>= fun _ => pure r) m := by
  have hrun : Run.allocate new m = .ok ⟨m.size⟩ (m.withHeap (m.heap.allocate new).2) := rfl
  have hobject : (m.withHeap (m.heap.allocate new).2).heap.object ⟨m.size⟩ = new :=
    Heap.object_allocate_self m.heap new
  have hcreate : (engine (n + 1)).createAll ⟨m.size⟩ ps (m.withHeap (m.heap.allocate new).2) = _ :=
    engine_createAll (by rwa [hobject]) (by rwa [hobject])
  rw [Run.bind_ok hrun, Run.bind_ok hrun, Run.bind_apply, Run.bind_apply, hcreate]

/-- **A new object of plain properties is the one that its internal method makes.** -/
theorem engine_objectOf (n : Nat) (ps : List (Key × Value)) (m : Machine) :
    (engine (n + 1)).objectOf ps m = Engine.newPlainObject ps m :=
  engine_createAll_new rfl (fun harray => by cases harray) n m

/-- **A new array of values is the one that its internal method makes.** -/
theorem engine_arrayOf (n : Nat) (vs : List Value) (m : Machine) :
    (engine (n + 1)).arrayOf vs m = Engine.newArray vs m := by
  refine engine_createAll_new rfl (fun _ e he => ?_) n m
  obtain ⟨⟨v, i⟩, -, rfl⟩ := List.mem_map.1 he
  exact (Key.length_ne_index _).symm

end Creating

/-! ### A closed object with a getter -/

/-- An object that takes no properties, with a getter that can be replaced. -/
def Object.closedWithGetter : Object :=
  { Object.new none .ordinary with
    extensible := false
    properties := PropertyTable.empty.insert "x" ⟨.accessor (some ⟨0⟩) none, true, true⟩ }

/-- The realm with such an object at place 46. -/
def Machine.closedWithGetter : Machine :=
  (Session.initialMachine ⟨true, false⟩).withHeap
    ((Session.initialMachine ⟨true, false⟩).heap.allocate .closedWithGetter).2

theorem Machine.object_closedWithGetter :
    46 < Machine.closedWithGetter.size ∧
      Machine.closedWithGetter.heap.object ⟨46⟩ = .closedWithGetter := by
  have hsize : (Session.initialMachine ⟨true, false⟩).heap.objects.size = 46 := by decide +kernel
  unfold Machine.closedWithGetter
  -- from here on the realm is not evaluated any more
  generalize Session.initialMachine ⟨true, false⟩ = m at *
  rw [Machine.size_withHeap, Heap.size_allocate, hsize]
  refine ⟨by decide, ?_⟩
  rw [← hsize]
  exact m.heap.object_allocate_self _

/-- The getter gives way to a value, which is read-only, and a new property is refused. -/
theorem definition_of_closedWithGetter :
    46 < Machine.closedWithGetter.size ∧ (Machine.closedWithGetter.heap.object ⟨46⟩).Ordinary ∧
    (∃ o', (engine 1).defineOwnProperty ⟨46⟩ "x" { value := some .null } Machine.closedWithGetter =
        .ok true (Machine.closedWithGetter.replace ⟨46⟩ o') ∧
      o'.ownDescriptor "x" = some { value := some .null, writable := some false
                                    enumerable := some true, configurable := some true } ∧
      (engine 1).defineOwnProperty ⟨46⟩ "x" { value := some .null }
          (Machine.closedWithGetter.replace ⟨46⟩ o') =
        .ok true (Machine.closedWithGetter.replace ⟨46⟩ o')) ∧
    (engine 1).defineOwnProperty ⟨46⟩ "y" { value := some .null } Machine.closedWithGetter =
      .ok false Machine.closedWithGetter := by
  obtain ⟨hlive, hobject⟩ := Machine.object_closedWithGetter
  generalize Machine.closedWithGetter = m at *
  have hordinary : (m.heap.object ⟨46⟩).Ordinary := by
    rw [hobject]
    exact ⟨rfl, rfl⟩
  have hx : (m.heap.object ⟨46⟩).ownDescriptor "x" =
      some { get := some (some ⟨0⟩), set := some none, enumerable := some true
             configurable := some true } := by
    rw [hobject]
    decide +kernel
  have hy : (m.heap.object ⟨46⟩).ownDescriptor "y" = none := by
    rw [hobject]
    decide +kernel
  have hclosed : (m.heap.object ⟨46⟩).extensible = false := by
    rw [hobject]
    rfl
  refine ⟨hlive, hordinary, ?_, ?_⟩
  · rcases definition_refused_or_applied (d := { value := some .null }) hlive hordinary rfl "x" 0 with
      ⟨hrefuses, -⟩ | ⟨-, o', e, hrun, -, he, -, hredefined, hagain⟩
    · exact absurd (by simp [Object.Accepts, hx]) hrefuses
    · refine ⟨o', hrun, ?_, hagain⟩
      rw [hredefined.own, he, hx]
      rfl
  · rcases definition_refused_or_applied (d := { value := some .null }) hlive hordinary rfl "y" 0 with
      ⟨-, hrun⟩ | ⟨haccepts, -⟩
    · exact hrun
    · simp [Object.Accepts, hy, hclosed] at haccepts

end ObjectModel
