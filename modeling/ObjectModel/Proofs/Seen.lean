import ObjectModel.Proofs.Discipline
import ObjectModel.Proofs.Slots

/-!
# What is seen through data

The places in a piece of data are those in its parts, and the operations on properties, tables and
objects bring in no places beyond those of their operands.
-/

namespace ObjectModel

variable {D : Discipline} {b : Nat}

namespace Discipline

variable {α β : Type}

/-! ## Parts -/

@[simp]
theorem seen_ref {r : Ref} : D.Seen b r ↔ D.knows b r :=
  ⟨fun h => h r rfl, fun h _ hr => hr ▸ h⟩

section Containers

variable [HasRefs α] [HasRefs β]

@[simp]
theorem seen_none : D.Seen b (none : Option α) := by
  rintro r ⟨a, ha, -⟩
  cases ha

@[simp]
theorem seen_some {a : α} : D.Seen b (some a) ↔ D.Seen b a :=
  ⟨fun h r hr => h r ⟨a, rfl, hr⟩, by rintro h r ⟨a', ha', hr⟩; cases ha'; exact h r hr⟩

@[simp]
theorem seen_nil : D.Seen b ([] : List α) := by
  rintro r ⟨a, ha, -⟩
  cases ha

@[simp]
theorem seen_cons {a : α} {l : List α} : D.Seen b (a :: l) ↔ D.Seen b a ∧ D.Seen b l := by
  constructor
  · intro h
    exact ⟨fun r hr => h r ⟨a, List.mem_cons_self, hr⟩,
      fun r ⟨x, hx, hr⟩ => h r ⟨x, List.mem_cons_of_mem _ hx, hr⟩⟩
  · rintro ⟨ha, hl⟩ r ⟨x, hx, hr⟩
    rcases List.mem_cons.1 hx with rfl | hx
    · exact ha r hr
    · exact hl r ⟨x, hx, hr⟩

theorem seen_list {l : List α} : D.Seen b l ↔ ∀ a ∈ l, D.Seen b a :=
  ⟨fun h a ha r hr => h r ⟨a, ha, hr⟩, fun h r ⟨a, ha, hr⟩ => h a ha r hr⟩

@[simp]
theorem seen_append {l l' : List α} : D.Seen b (l ++ l') ↔ D.Seen b l ∧ D.Seen b l' := by
  simp only [seen_list, List.mem_append]
  exact ⟨fun h => ⟨fun a ha => h a (Or.inl ha), fun a ha => h a (Or.inr ha)⟩,
    fun h a ha => ha.elim (h.1 a) (h.2 a)⟩

@[simp]
theorem seen_pair {p : α × β} : D.Seen b p ↔ D.Seen b p.1 ∧ D.Seen b p.2 :=
  ⟨fun h => ⟨fun r hr => h r (Or.inl hr), fun r hr => h r (Or.inr hr)⟩,
    fun h r hr => hr.elim (h.1 r) (h.2 r)⟩

theorem Seen.getD {l : List α} {a : α} (hl : D.Seen b l) (ha : D.Seen b a) (i : Nat) :
    D.Seen b (l.getD i a) := by
  rw [List.getD_eq_getElem?_getD]
  cases hi : l[i]? with
  | none => exact ha
  | some x => exact seen_list.1 hl x (List.mem_of_getElem? hi)

end Containers

@[simp]
theorem seen_unit {u : Unit} : D.Seen b u := fun _ h => h.elim

@[simp]
theorem seen_key {k : Key} : D.Seen b k := fun _ h => h.elim

@[simp]
theorem seen_nat {n : Nat} : D.Seen b n := fun _ h => h.elim

@[simp]
theorem seen_trap {t : Trap} : D.Seen b t := fun _ h => h.elim

@[simp]
theorem seen_operation {op : HandlerOperation} : D.Seen b op := fun _ h => h.elim

@[simp]
theorem seen_undefined : D.Seen b Value.undefined := nofun

@[simp]
theorem seen_null : D.Seen b Value.null := nofun

@[simp]
theorem seen_bool {x : Bool} : D.Seen b (Value.bool x) := nofun

@[simp]
theorem seen_number {n : Number} : D.Seen b (Value.number n) := nofun

@[simp]
theorem seen_ofNat {n : Nat} : D.Seen b (Value.ofNat n) := nofun

@[simp]
theorem seen_text {t : Text} : D.Seen b (Value.text t) := nofun

@[simp]
theorem seen_symbol {s : Symbol} : D.Seen b (Value.symbol s) := nofun

@[simp]
theorem seen_object {r : Ref} : D.Seen b (Value.object r) ↔ D.knows b r :=
  ⟨fun h => h r rfl, by rintro h r' hr; cases hr; exact h⟩

theorem seen_toValue {k : Key} : D.Seen b k.toValue := by
  cases k <;> simp [Key.toValue]

theorem seen_primitive {p : Primitive} : D.Seen b p.toValue := by
  cases p <;> simp [Primitive.toValue]

theorem Seen.ofRef? {p : Option Ref} (h : D.Seen b p) : D.Seen b (Value.ofRef? p) := by
  cases p with
  | none => exact seen_null
  | some r => simpa [Value.ofRef?] using h

theorem Seen.ref? {v : Value} (h : D.Seen b v) : D.Seen b v.ref? := by
  cases v <;> simp_all [Value.ref?]

theorem Seen.elim {f : Option Ref} (h : D.Seen b f) :
    D.Seen b (f.elim Value.undefined Value.object) := by
  cases f with
  | none => exact seen_undefined
  | some r => simpa using h

theorem seen_intrinsic {i : Intrinsic} : D.Seen b i.ref := seen_ref.2 (D.knows_intrinsic b i)

/-! ## Descriptors and properties -/

theorem seen_descriptor {d : Descriptor} :
    D.Seen b d ↔ D.Seen b d.value ∧ D.Seen b d.get ∧ D.Seen b d.set :=
  ⟨fun h => ⟨fun r hr => h r (Or.inl hr), fun r hr => h r (Or.inr (Or.inl hr)),
    fun r hr => h r (Or.inr (Or.inr hr))⟩,
    fun h r hr => hr.elim (h.1 r) fun hr => hr.elim (h.2.1 r) (h.2.2 r)⟩

theorem Seen.getD' [HasRefs α] {o : Option α} {a : α} (ho : D.Seen b o) (ha : D.Seen b a) :
    D.Seen b (o.getD a) := by
  cases o with
  | none => exact ha
  | some x => exact seen_some.1 ho

theorem Seen.join [HasRefs α] {o : Option (Option α)} (ho : D.Seen b o) : D.Seen b o.join := by
  cases o with
  | none => exact seen_none
  | some x => exact seen_some.1 ho

theorem Seen.complete {d : Descriptor} (h : D.Seen b d) : D.Seen b d.complete := by
  rw [seen_descriptor] at h ⊢
  unfold Descriptor.complete
  split
  · exact ⟨seen_some.2 (h.1.getD' seen_undefined), h.2.1, h.2.2⟩
  · exact ⟨h.1, seen_some.2 (h.2.1.getD' seen_none), seen_some.2 (h.2.2.getD' seen_none)⟩

theorem Seen.plain {v : Value} (h : D.Seen b v) : D.Seen b (Descriptor.plain v) :=
  seen_descriptor.2 ⟨seen_some.2 h, seen_none, seen_none⟩

@[simp]
theorem seen_data {v : Value} {w e c : Bool} :
    D.Seen b (Property.data v w e c) ↔ D.Seen b v := Iff.rfl

@[simp]
theorem seen_hidden {v : Value} : D.Seen b (Property.hidden v) ↔ D.Seen b v := Iff.rfl

theorem seen_accessor {g s : Option Ref} {e c : Bool} :
    D.Seen b (⟨.accessor g s, e, c⟩ : Property) ↔ D.Seen b g ∧ D.Seen b s :=
  ⟨fun h => ⟨fun r hr => h r (Or.inl hr), fun r hr => h r (Or.inr hr)⟩,
    fun h r hr => hr.elim (h.1 r) (h.2 r)⟩

theorem Seen.toDescriptor {p : Property} (h : D.Seen b p) : D.Seen b p.toDescriptor := by
  obtain ⟨content, e, c⟩ := p
  cases content with
  | data v w => exact seen_descriptor.2 ⟨seen_some.2 h, seen_none, seen_none⟩
  | accessor g s =>
    obtain ⟨hg, hs⟩ := seen_accessor.1 h
    exact seen_descriptor.2 ⟨seen_none, seen_some.2 hg, seen_some.2 hs⟩

theorem Seen.ofDescriptor {d : Descriptor} (h : D.Seen b d) :
    D.Seen b (Property.ofDescriptor d) := by
  obtain ⟨hv, hg, hs⟩ := seen_descriptor.1 h
  unfold Property.ofDescriptor
  split
  · exact seen_accessor.2 ⟨hg.getD' seen_none, hs.getD' seen_none⟩
  · exact hv.getD' seen_undefined

theorem Seen.merge {p : Property} {d : Descriptor} (hp : D.Seen b p) (hd : D.Seen b d) :
    D.Seen b (p.merge d) := by
  obtain ⟨hv, hg, hs⟩ := seen_descriptor.1 hd
  obtain ⟨content, e, c⟩ := p
  cases content with
  | data v w =>
    simp only [Property.merge]
    split
    · exact seen_accessor.2 ⟨hg.getD' seen_none, hs.getD' seen_none⟩
    · exact hv.getD' hp
  | accessor g s =>
    obtain ⟨hg', hs'⟩ := seen_accessor.1 hp
    simp only [Property.merge]
    split
    · exact hv.getD' seen_undefined
    · exact seen_accessor.2 ⟨hg.getD' hg', hs.getD' hs'⟩

theorem Seen.revise {extensible : Bool} {current : Option Property} {d : Descriptor}
    {p : Property} (hc : D.Seen b current) (hd : D.Seen b d)
    (h : Property.revise extensible current d = some p) : D.Seen b p := by
  cases current with
  | none =>
    simp only [Property.revise] at h
    split at h
    · cases h
      exact hd.ofDescriptor
    · cases h
  | some q =>
    simp only [Property.revise] at h
    split at h
    · cases h
      exact (seen_some.1 hc).merge hd
    · cases h

/-! ## Slots -/

section Slots

variable {κ : Type} [Ord κ] [HasRefs κ] [HasRefs β]

theorem seen_slots {s : Slots κ β} :
    D.Seen b s ↔ ∀ k c, s.find? k = some c → D.Seen b k ∧ D.Seen b c := by
  constructor
  · intro h k c hk
    exact seen_pair.1 (seen_list.1 h (k, c) (Slots.mem_entries.2 hk))
  · rintro h r ⟨⟨k, c⟩, hkc, hr⟩
    exact seen_pair.2 (h k c (Slots.mem_entries.1 hkc)) r hr

variable [Std.TransOrd κ]

@[simp]
theorem seen_empty : D.Seen b (Slots.empty : Slots κ β) := by
  rw [seen_slots]
  intro k c h
  simp at h

variable [Std.LawfulEqOrd κ] [DecidableEq κ]

theorem Seen.insert {s : Slots κ β} {k : κ} {c : β} (hs : D.Seen b s) (hk : D.Seen b k)
    (hc : D.Seen b c) : D.Seen b (s.insert k c) := by
  rw [seen_slots] at hs ⊢
  intro k' c' h
  rw [Slots.find?_insert] at h
  split at h
  · next heq =>
    cases h
    exact ⟨heq ▸ hk, hc⟩
  · exact hs k' c' h

theorem Seen.erase {s : Slots κ β} {k : κ} (hs : D.Seen b s) : D.Seen b (s.erase k) := by
  rw [seen_slots] at hs ⊢
  intro k' c' h
  rw [Slots.find?_erase] at h
  split at h
  · cases h
  · exact hs k' c' h

theorem Seen.remove {t : PropertyTable} {k : Key} (ht : D.Seen b t) : D.Seen b (t.remove k) := by
  rw [seen_slots] at ht ⊢
  intro k' p h
  rw [PropertyTable.find?_remove] at h
  split at h
  · cases h
  · exact ht k' p h

theorem Seen.insertAll {s : Slots κ β} {es : List (κ × β)} (hs : D.Seen b s)
    (hes : D.Seen b es) : D.Seen b (s.insertAll es) := by
  rw [seen_slots] at hs ⊢
  intro k c h
  rcases Slots.find?_insertAll_cases h with h | h
  · exact hs k c h
  · exact seen_pair.1 (seen_list.1 hes _ h)

end Slots

theorem Seen.canonicalKey {v : Value} (h : D.Seen b v) : D.Seen b v.canonicalKey := by
  intro r hr
  cases v with
  | number n =>
    simp only [Value.canonicalKey] at hr
    split at hr <;> cases hr
  | _ => exact h r hr

/-! ## Objects -/

@[simp]
theorem seen_native {f : Native} {name : Text} {source : Option Text} :
    D.Seen b (⟨.native f, name, source⟩ : FunctionData) := fun _ h => h.elim

theorem seen_whole {o : Object} :
    D.Seen b o ↔ D.Seen b o.prototype ∧ D.Seen b o.properties ∧ D.Seen b o.kind :=
  ⟨fun h => ⟨fun r hr => h r (Or.inl hr), fun r hr => h r (Or.inr (Or.inl hr)),
    fun r hr => h r (Or.inr (Or.inr hr))⟩,
    fun h r hr => hr.elim (h.1 r) fun hr => hr.elim (h.2.1 r) (h.2.2 r)⟩

theorem seen_new {proto : Option Ref} {kind : Kind} :
    D.Seen b (Object.new proto kind) ↔ D.Seen b proto ∧ D.Seen b kind := by
  rw [seen_whole]
  exact ⟨fun h => ⟨h.1, h.2.2⟩, fun h => ⟨h.1, seen_empty, h.2⟩⟩

theorem Seen.find? {o : Object} {k : Key} (h : D.Seen b o) :
    D.Seen b (o.properties.find? k) := by
  cases hk : o.properties.find? k with
  | none => exact seen_none
  | some p => exact seen_some.2 (seen_slots.1 (seen_whole.1 h).2.1 k p hk).2

theorem Seen.withProperties {o : Object} {t : PropertyTable} (h : D.Seen b o)
    (ht : D.Seen b t) : D.Seen b { o with properties := t } := by
  rw [seen_whole] at h ⊢
  exact ⟨h.1, ht, h.2.2⟩

theorem Seen.withKind {o : Object} {kind : Kind} (h : D.Seen b o) (hk : D.Seen b kind) :
    D.Seen b { o with kind } := by
  rw [seen_whole] at h ⊢
  exact ⟨h.1, h.2.1, hk⟩

theorem Seen.withLength {o : Object} (h : D.Seen b o) (length : Nat) (writable : Bool) :
    D.Seen b (o.withLength length writable) :=
  h.withKind nofun

theorem Seen.define? {o o' : Object} {k : Key} {d : Descriptor} (h : D.Seen b o)
    (hd : D.Seen b d) (ho' : o.define? k d = some o') : D.Seen b o' := by
  obtain ⟨p, hp, rfl⟩ := Option.map_eq_some_iff.1 ho'
  exact h.withProperties ((seen_whole.1 h).2.1.insert seen_key (h.find?.revise hd hp))

theorem Seen.delete? {o o' : Object} {k : Key} (h : D.Seen b o) (ho' : o.delete? k = some o') :
    D.Seen b o' := by
  unfold Object.delete? at ho'
  split at ho'
  · cases ho'
    exact h
  · split at ho'
    · cases ho'
      exact h.withProperties (seen_whole.1 h).2.1.remove
    · cases ho'

theorem Seen.defineElement? {o o' : Object} {i : Nat} {d : Descriptor} (h : D.Seen b o)
    (hd : D.Seen b d) (ho' : o.defineElement? i d = some o') : D.Seen b o' := by
  unfold Object.defineElement? at ho'
  split at ho'
  · split at ho'
    · cases ho'
    · obtain ⟨o₁, h₁, rfl⟩ := Option.map_eq_some_iff.1 ho'
      split
      · exact (h.define? hd h₁).withLength _ _
      · exact h.define? hd h₁
  · exact h.define? hd ho'

theorem Seen.defineStored? {o o' : Object} {k : Key} {d : Descriptor} (h : D.Seen b o)
    (hd : D.Seen b d) (ho' : o.defineStored? k d = some o') : D.Seen b o' := by
  unfold Object.defineStored? at ho'
  split at ho'
  · exact h.defineElement? hd ho'
  · exact h.define? hd ho'

theorem Seen.deleteIndexes {o : Object} (h : D.Seen b o) (is : List Nat) :
    D.Seen b (o.deleteIndexes is).1 := by
  induction is generalizing o with
  | nil => exact h
  | cons i rest ih =>
    unfold Object.deleteIndexes
    split
    · next hd => exact ih (h.delete? hd)
    · exact h

theorem Seen.shrink {o : Object} (h : D.Seen b o) (length : Nat) (writable : Bool) :
    D.Seen b (o.shrink length writable).1 := by
  have hdel := h.deleteIndexes (o.properties.indexesFrom length).reverse
  unfold Object.shrink
  split
  · next heq =>
    rw [heq] at hdel
    exact hdel.withLength _ _
  · next heq =>
    rw [heq] at hdel
    exact hdel.withLength _ _

theorem Seen.resize {o : Object} (h : D.Seen b o) (length : Nat) (writable : Bool) :
    D.Seen b (o.resize length writable).1 := by
  unfold Object.resize
  split
  · split
    · split
      · exact h.withLength _ _
      · exact h
    · split
      · exact h.shrink _ _
      · exact h
  · exact h

theorem Seen.restrictLength {o : Object} (h : D.Seen b o) (d : Descriptor) :
    D.Seen b (o.restrictLength d).1 := by
  unfold Object.restrictLength
  split
  · split
    · exact h
    · split
      · exact h
      · exact h.withLength _ _
  · exact h

theorem Seen.populate {o : Object} {ps : List (Key × Property)} (h : D.Seen b o)
    (hps : D.Seen b ps) (extensible : Bool) : D.Seen b (o.populate ps extensible) :=
  h.withProperties ((seen_whole.1 h).2.1.insertAll hps)

theorem Seen.ownDescriptor {o : Object} (h : D.Seen b o) (k : Key) :
    D.Seen b (o.ownDescriptor k) := by
  have hstored : D.Seen b ((o.properties.find? k).map Property.toDescriptor) := by
    have hk : D.Seen b (o.properties.find? k) := h.find?
    cases hf : o.properties.find? k with
    | none => exact seen_none
    | some p =>
      rw [hf] at hk
      exact seen_some.2 (seen_some.1 hk).toDescriptor
  unfold Object.ownDescriptor
  split
  · split
    · exact seen_some.2 (seen_descriptor.2 ⟨seen_some.2 seen_ofNat, seen_none, seen_none⟩)
    · exact hstored
  · exact hstored

/-! ## Heaps and machines -/

theorem Seen.objectAt {h : Heap} (hh : D.Seen b h) (r : Ref) : D.Seen b (h.object r) :=
  fun q hq => hh q ⟨r, hq⟩

theorem Seen.kindAt {h : Heap} (hh : D.Seen b h) (r : Ref) : D.Seen b (h.kind r) :=
  (seen_whole.1 (hh.objectAt r)).2.2

theorem Seen.prototypeOf {h : Heap} (hh : D.Seen b h) (r : Ref) : D.Seen b (h.prototypeOf r) :=
  (seen_whole.1 (hh.objectAt _)).1

theorem Sound.heap {m : Machine} (hm : D.Sound m) : D.Seen m.size m.heap :=
  fun r hr => hm.2 r (Or.inl hr)

theorem Sound.object {m : Machine} (hm : D.Sound m) (r : Ref) :
    D.Seen m.size (m.heap.object r) := hm.heap.objectAt r

theorem Sound.bindings {m : Machine} (hm : D.Sound m) : D.Seen m.size m.bindings :=
  fun r hr => hm.2 r (Or.inr (Or.inr (Or.inl hr)))

theorem Sound.caught {m : Machine} (hm : D.Sound m) : D.Seen m.size m.caught :=
  fun r hr => hm.2 r (Or.inr (Or.inr (Or.inr hr)))

/-- A machine stays sound with a heap that has all its objects and is itself seen through. -/
theorem Sound.withHeap {m : Machine} {h : Heap} (hm : D.Sound m)
    (hsize : m.size ≤ h.objects.size) (hh : ∀ p, D.Seen h.objects.size (h.object p)) :
    D.Sound (m.withHeap h) := by
  refine ⟨Nat.le_trans hm.1 hsize, ?_⟩
  rintro r (⟨p, hp⟩ | hr)
  · exact hh p r hp
  · exact D.knows_mono hsize (hm.2 r (Or.inr hr))

theorem Sound.allocate {m : Machine} {o : Object} (hm : D.Sound m) (ho : D.Seen m.size o) :
    D.Sound (m.withHeap (m.heap.allocate o).2) := by
  have hsize : m.size ≤ (m.heap.allocate o).2.objects.size := by
    rw [Heap.size_allocate]
    exact Nat.le_succ _
  refine hm.withHeap hsize fun p => ?_
  rw [Heap.object_allocate]
  split
  · exact ho.mono hsize
  · exact (hm.object p).mono hsize

theorem Sound.modify {m : Machine} {r : Ref} {f : Object → Object} (hm : D.Sound m)
    (hf : D.Seen m.size (f (m.heap.object r))) : D.Sound (m.withHeap (m.heap.modify r f)) := by
  have hsize : (m.heap.modify r f).objects.size = m.size := Heap.size_modify ..
  refine hm.withHeap (Nat.le_of_eq hsize.symm) fun p => ?_
  rw [hsize, Heap.object_modify]
  split
  · exact hf
  · exact hm.object p

end Discipline

end ObjectModel
