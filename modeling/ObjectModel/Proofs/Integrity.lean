import Mathlib.Logic.Relation
import ObjectModel.Proofs.Routine.Step

/-!
# Integrity of objects

An object that takes no more properties never does again, keeps its prototype and gets no new own
key.  An own property that is not configurable stays, with its enumerability and its kind; as an
accessor it keeps its functions, and as a read-only property its value.  The length of an array is
one of these properties.

`Object.Upheld` states this between two states of one object.  Every revision of an object upholds
it as long as no descriptor mentions a value and an accessor at once, and nothing but a revision
or a new prototype changes an object once the extensions are there.
-/

namespace ObjectModel

/-! ## Own keys -/

theorem PropertyTable.mem_keys {t : PropertyTable} {k : Key} :
    k ∈ t.keys ↔ (t.find? k).isSome = true := by
  have hentry : (t.find? k).isSome = true ↔ ∃ p, (k, p) ∈ t.entries := by
    simp only [Option.isSome_iff_exists, Slots.mem_entries]
  have hname : k ∈ t.entries.map Prod.fst ↔ ∃ p, (k, p) ∈ t.entries := by simp
  have hindex (i : Nat) : i ∈ t.indexes ↔ ∃ p, (Key.index i, p) ∈ t.entries := by
    unfold indexes
    rw [List.mem_filterMap]
    constructor
    · rintro ⟨⟨k, p⟩, hmem, hk⟩
      cases k <;> cases hk
      exact ⟨p, hmem⟩
    · rintro ⟨p, hmem⟩
      exact ⟨_, hmem, rfl⟩
  rw [hentry]
  unfold keys names symbols
  cases k with
  | index i => simp [hindex, Key.isIndex, Key.isSymbol]
  | name s => simp [Key.isIndex, Key.isSymbol]
  | symbol s => simp [Key.isIndex, Key.isSymbol]

theorem Object.mem_ownKeys {o : Object} {k : Key} :
    k ∈ o.ownKeys ↔ (o.ownDescriptor k).isSome = true := by
  have hstored : ((o.properties.find? k).map Property.toDescriptor).isSome = true ↔
      k ∈ o.properties.keys := by
    rw [PropertyTable.mem_keys, Option.isSome_map]
  unfold ownKeys ownDescriptor
  split
  · have hsplit : k ∈ o.properties.keys ↔
        k ∈ o.properties.keys.takeWhile Key.isIndex ∨
          k ∈ o.properties.keys.dropWhile Key.isIndex := by
      rw [← List.mem_append, List.takeWhile_append_dropWhile]
    unfold insertLength
    rw [List.mem_append, List.mem_cons]
    by_cases hk : k = .length
    · simp [hk]
    · rw [if_neg hk, hstored, hsplit]
      simp [hk]
  · exact hstored.symm

/-! ## What is kept -/

namespace Descriptor

/-- The descriptor does not mention a value and an accessor at once. -/
def isConsistent (d : Descriptor) : Bool := !(d.isData && d.isAccessor)

/-- A property that is not configurable may become the other. -/
structure Persists (d d' : Descriptor) : Prop where
  configurable : d'.configurable = some false
  enumerable : d'.enumerable = d.enumerable
  isData : d'.isData = d.isData
  get : d'.get = d.get
  set : d'.set = d.set
  readOnly : d.writable = some false → d'.writable = some false ∧ d'.value = d.value

theorem Persists.refl {d : Descriptor} (h : d.configurable = some false) : d.Persists d :=
  ⟨h, rfl, rfl, rfl, rfl, fun h => ⟨h, rfl⟩⟩

theorem Persists.trans {d₁ d₂ d₃ : Descriptor} (h : d₁.Persists d₂) (h' : d₂.Persists d₃) :
    d₁.Persists d₃ where
  configurable := h'.configurable
  enumerable := h'.enumerable.trans h.enumerable
  isData := h'.isData.trans h.isData
  get := h'.get.trans h.get
  set := h'.set.trans h.set
  readOnly hw :=
    have hw' := h.readOnly hw
    have hw'' := h'.readOnly hw'.1
    ⟨hw''.1, hw''.2.trans hw'.2⟩

end Descriptor

namespace Property

theorem configurable_toDescriptor (p : Property) :
    p.toDescriptor.configurable = some p.configurable := by
  unfold toDescriptor
  split <;> rfl

/-- An attribute that a descriptor mentions as it is, or not at all, stays as it is. -/
theorem getD_eq_of_mentions {α : Type} [BEq α] [LawfulBEq α] {o : Option α} {a : α}
    (h : (o.isNone || o == some a) = true) : o.getD a = a := by
  cases o <;> simp_all

/-- What a property that is not configurable admits, it persists through. -/
theorem persists_merge {p : Property} {d : Descriptor} (hp : p.configurable = false)
    (hadmits : p.admits d = true) (hd : d.isConsistent = true) :
    p.toDescriptor.Persists (p.merge d).toDescriptor := by
  unfold admits at hadmits
  rw [hp, Bool.false_or, Bool.and_eq_true, Bool.and_eq_true, Bool.and_eq_true] at hadmits
  obtain ⟨⟨⟨hconfigurable, henumerable⟩, hkind⟩, hcontent⟩ := hadmits
  have hconfigurable : d.configurable.getD p.configurable = false := by
    rw [hp]
    cases hc : d.configurable with
    | none => rfl
    | some c => cases c <;> simp_all
  have henumerable : d.enumerable.getD p.enumerable = p.enumerable :=
    getD_eq_of_mentions henumerable
  have hkind : d.isGeneric = true ∨ d.isAccessor = p.isAccessor := by simpa using hkind
  cases hpc : p.content with
  | data v w =>
    have hd : d.isAccessor = false := by
      have hp : p.isAccessor = false := by simp [isAccessor, hpc]
      rcases hkind with hgeneric | hkind
      · simp_all [Descriptor.isGeneric]
      · rw [hkind, hp]
    have hmerge : p.merge d =
        ⟨.data (d.value.getD v) (d.writable.getD w), p.enumerable, false⟩ := by
      simp [merge, hpc, hd, henumerable, hconfigurable]
    have hreadOnly : w = false → d.writable.getD w = false ∧ d.value.getD v = v := by
      rintro rfl
      rw [hpc] at hcontent
      simp only [Bool.false_or, Bool.and_eq_true] at hcontent
      refine ⟨?_, getD_eq_of_mentions hcontent.2⟩
      cases hw : d.writable with
      | none => rfl
      | some w => cases w <;> simp_all
    have hold : p.toDescriptor = (Property.data v w p.enumerable p.configurable).toDescriptor := by
      simp [toDescriptor, hpc, data]
    rw [hmerge, hold]
    refine ⟨rfl, rfl, rfl, rfl, rfl, fun hw => ?_⟩
    obtain ⟨hw', hv⟩ := hreadOnly (Option.some.inj hw)
    exact ⟨congrArg some hw', congrArg some hv⟩
  | accessor g s =>
    have hd : d.isData = false := by
      have hp : p.isAccessor = true := by simp [isAccessor, hpc]
      rcases hkind with hgeneric | hkind
      · simp_all [Descriptor.isGeneric]
      · simp_all [Descriptor.isConsistent]
    have hmerge : p.merge d = ⟨.accessor (d.get.getD g) (d.set.getD s), p.enumerable, false⟩ := by
      simp [merge, hpc, hd, henumerable, hconfigurable]
    rw [hpc] at hcontent
    simp only [Bool.and_eq_true] at hcontent
    have hold : p.toDescriptor =
        (Property.mk (.accessor g s) p.enumerable p.configurable).toDescriptor := by
      simp [toDescriptor, hpc]
    rw [hmerge, hold, getD_eq_of_mentions hcontent.1, getD_eq_of_mentions hcontent.2]
    refine ⟨rfl, rfl, rfl, rfl, rfl, fun hw => ?_⟩
    cases hw

end Property

/-! ## Objects -/

namespace Object

/-- The integrity of an object is upheld in another state of it. -/
structure Upheld (o o' : Object) : Prop where
  closed : o.extensible = false → o'.extensible = false
  prototype : o.extensible = false → o'.prototype = o.prototype
  keys : o.extensible = false → ∀ k ∈ o'.ownKeys, k ∈ o.ownKeys
  fixed : ∀ k d, o.ownDescriptor k = some d → d.configurable = some false →
    ∃ d', o'.ownDescriptor k = some d' ∧ d.Persists d'

variable {o o' : Object} {k : Key} {d : Descriptor}

theorem Upheld.refl (o : Object) : o.Upheld o :=
  ⟨id, fun _ => rfl, fun _ _ => id, fun _ d hd hc => ⟨d, hd, .refl hc⟩⟩

theorem Upheld.trans {o₁ o₂ o₃ : Object} (h : o₁.Upheld o₂) (h' : o₂.Upheld o₃) :
    o₁.Upheld o₃ := by
  refine ⟨fun ho => h'.closed (h.closed ho), fun ho => ?_, fun ho k hk => ?_, fun k d hd hc => ?_⟩
  · rw [h'.prototype (h.closed ho), h.prototype ho]
  · exact h.keys ho k (h'.keys (h.closed ho) k hk)
  · obtain ⟨d₂, hd₂, hp₂⟩ := h.fixed k d hd hc
    obtain ⟨d₃, hd₃, hp₃⟩ := h'.fixed k d₂ hd₂ hp₂.configurable
    exact ⟨d₃, hd₃, hp₂.trans hp₃⟩

theorem ownDescriptor_default (k : Key) : (default : Object).ownDescriptor k = none := by
  show (Slots.find? PropertyTable.empty k).map Property.toDescriptor = none
  simp [PropertyTable.empty]

/-- A place without an object has nothing to uphold. -/
theorem upheld_default (o : Object) : (default : Object).Upheld o := by
  refine ⟨nofun, nofun, nofun, fun k d hd => ?_⟩
  rw [ownDescriptor_default] at hd
  cases hd

/-- Integrity only depends on the own properties, the prototype and the extensibility. -/
theorem upheld_of_eq (hextensible : o.extensible = false → o'.extensible = false)
    (hprototype : o.extensible = false → o'.prototype = o.prototype)
    (hown : ∀ k, o'.ownDescriptor k = o.ownDescriptor k) : o.Upheld o' := by
  refine ⟨hextensible, hprototype, fun _ k hk => ?_, fun k d hd hc => ?_⟩
  · rwa [mem_ownKeys, hown, ← mem_ownKeys] at hk
  · exact ⟨d, (hown k).trans hd, .refl hc⟩

/-- Changes of stored properties: one that is not configurable persists, and an object that takes
no properties gets none. -/
theorem upheld_withProperties {t : PropertyTable}
    (hnew : o.extensible = false → ∀ k, (t.find? k).isSome → (o.properties.find? k).isSome)
    (hfixed : ∀ k p, o.properties.find? k = some p → p.configurable = false →
      ∃ p', t.find? k = some p' ∧ p.toDescriptor.Persists p'.toDescriptor) :
    o.Upheld { o with properties := t } := by
  -- the length of an array is no stored property and stays as it is
  have hcases (k : Key) : (ownDescriptor { o with properties := t } k =
        (t.find? k).map Property.toDescriptor ∧
          o.ownDescriptor k = (o.properties.find? k).map Property.toDescriptor) ∨
      ownDescriptor { o with properties := t } k = o.ownDescriptor k := by
    by_cases hk : o.isArray = true ∧ k = .length
    · obtain ⟨harray, rfl⟩ := hk
      obtain ⟨length, writable, hkind⟩ := exists_of_isArray harray
      right
      rw [ownDescriptor_length hkind]
      exact ownDescriptor_length hkind
    · have hstored : o.isArray = true → k ≠ .length := fun harray hlength => hk ⟨harray, hlength⟩
      exact .inl ⟨ownDescriptor_eq hstored, ownDescriptor_eq hstored⟩
  refine ⟨id, fun _ => rfl, fun ho k hk => ?_, fun k d hd hc => ?_⟩
  · rw [mem_ownKeys] at hk ⊢
    rcases hcases k with ⟨hnow, hthen⟩ | hsame
    · rw [hnow, Option.isSome_map] at hk
      rw [hthen, Option.isSome_map]
      exact hnew ho k hk
    · rwa [← hsame]
  · rcases hcases k with ⟨hnow, hthen⟩ | hsame
    · rw [hthen] at hd
      obtain ⟨p, hp, rfl⟩ := Option.map_eq_some_iff.1 hd
      rw [Property.configurable_toDescriptor] at hc
      obtain ⟨p', hp', hpersists⟩ := hfixed k p hp (Option.some.inj hc)
      exact ⟨p'.toDescriptor, by rw [hnow, hp']; rfl, hpersists⟩
    · exact ⟨d, hsame.trans hd, .refl hc⟩

theorem upheld_define? (hd : d.isConsistent = true) (h : o.define? k d = some o') :
    o.Upheld o' := by
  obtain ⟨p, hrevise, rfl⟩ := Option.map_eq_some_iff.1 h
  refine upheld_withProperties (fun ho k' hk' => ?_) fun k' q hq hc => ?_
  · rw [Slots.find?_insert] at hk'
    split at hk'
    · next hkk =>
      -- a new property would have been refused
      subst hkk
      cases hfind : o.properties.find? k' with
      | none => simp [Property.revise, hfind, ho] at hrevise
      | some q => rfl
    · exact hk'
  · rw [Slots.find?_insert]
    split
    · next hkk =>
      subst hkk
      simp only [hq, Property.revise] at hrevise
      split at hrevise
      · next hadmits =>
        cases hrevise
        exact ⟨_, rfl, Property.persists_merge hc hadmits hd⟩
      · cases hrevise
    · exact ⟨q, hq, .refl ((Property.configurable_toDescriptor q).trans (congrArg some hc))⟩

theorem upheld_delete? (h : o.delete? k = some o') : o.Upheld o' := by
  unfold delete? at h
  split at h
  · cases h
    exact .refl o
  · next p hfind =>
    split at h
    · next hconfigurable =>
      cases h
      refine upheld_withProperties (fun _ k' hk' => ?_) fun k' q hq hc => ?_
      · rw [PropertyTable.find?_remove] at hk'
        split at hk'
        · cases hk'
        · exact hk'
      · rw [PropertyTable.find?_remove]
        split
        · next hkk =>
          subst hkk
          simp_all
        · exact ⟨q, hq, .refl ((Property.configurable_toDescriptor q).trans (congrArg some hc))⟩
    · cases h

/-! ### Arrays -/

/-- A writable length may change and become read-only. -/
theorem upheld_withLength {length : Nat} (hkind : o.kind = .array length true)
    (length' : Nat) (writable : Bool) : o.Upheld (o.withLength length' writable) := by
  have hkind' : (o.withLength length' writable).kind = .array length' writable := rfl
  have hother (k : Key) (hk : k ≠ .length) :
      (o.withLength length' writable).ownDescriptor k = o.ownDescriptor k := by
    rw [ownDescriptor_eq fun _ => hk, ownDescriptor_eq fun _ => hk]
    rfl
  refine ⟨id, fun _ => rfl, fun _ k hk => ?_, fun k d hd hc => ?_⟩
  · by_cases hlength : k = .length
    · subst hlength
      rw [mem_ownKeys, ownDescriptor_length hkind]
      rfl
    · rwa [mem_ownKeys, hother k hlength, ← mem_ownKeys] at hk
  · by_cases hlength : k = .length
    · subst hlength
      rw [ownDescriptor_length hkind] at hd
      cases hd
      exact ⟨_, ownDescriptor_length hkind', rfl, rfl, rfl, rfl, rfl, nofun⟩
    · exact ⟨d, (hother k hlength).trans hd, .refl hc⟩

theorem upheld_deleteIndexes (o : Object) (is : List Nat) :
    o.Upheld (o.deleteIndexes is).1 ∧ (o.deleteIndexes is).1.kind = o.kind := by
  induction is generalizing o with
  | nil => exact ⟨.refl o, rfl⟩
  | cons i rest ih =>
    unfold deleteIndexes
    split
    · next o' h =>
      obtain ⟨hupheld, hkind⟩ := ih o'
      exact ⟨(upheld_delete? h).trans hupheld, hkind.trans (kind_delete? h)⟩
    · exact ⟨.refl o, rfl⟩

theorem upheld_shrink {old : Nat} (hkind : o.kind = .array old true) (length : Nat)
    (writable : Bool) : o.Upheld (o.shrink length writable).1 := by
  obtain ⟨hupheld, hkind'⟩ :=
    upheld_deleteIndexes o (o.properties.indexesFrom length).reverse
  rw [hkind] at hkind'
  unfold shrink
  split
  · next o' hdeleted =>
    rw [hdeleted] at hupheld hkind'
    exact hupheld.trans (upheld_withLength hkind' _ _)
  · next o' i hdeleted =>
    rw [hdeleted] at hupheld hkind'
    exact hupheld.trans (upheld_withLength hkind' _ _)

theorem upheld_resize (o : Object) (length : Nat) (writable : Bool) :
    o.Upheld (o.resize length writable).1 := by
  unfold resize
  split
  · next old oldWritable hkind =>
    cases oldWritable with
    | true =>
      split
      · exact upheld_withLength hkind _ _
      · exact upheld_shrink hkind _ _
    | false => split <;> exact .refl o
  · exact .refl o

theorem upheld_restrictLength (o : Object) (d : Descriptor) :
    o.Upheld (o.restrictLength d).1 := by
  unfold restrictLength
  split
  · next length writable hkind =>
    cases writable with
    | true =>
      split
      · exact .refl o
      · exact upheld_withLength hkind _ _
    | false => split <;> exact .refl o
  · exact .refl o

/-- Storing an element beyond the end of an array raises its length, which has to be writable. -/
theorem upheld_defineElement? {i : Nat} (hd : d.isConsistent = true)
    (h : o.defineElement? i d = some o') : o.Upheld o' := by
  unfold defineElement? at h
  split at h
  · next length writable hkind =>
    split at h
    · cases h
    · next hwritable =>
      obtain ⟨o₁, hdefine, rfl⟩ := Option.map_eq_some_iff.1 h
      have hupheld := upheld_define? hd hdefine
      split
      · next hgrows =>
        have hwritable : writable = true := by simp_all
        subst hwritable
        have hkind₁ : o₁.kind = .array length true := by
          obtain ⟨p, -, rfl⟩ := Option.map_eq_some_iff.1 hdefine
          exact hkind
        exact hupheld.trans (upheld_withLength hkind₁ _ _)
      · exact hupheld
  · exact upheld_define? hd h

theorem upheld_defineStored? (hd : d.isConsistent = true) (h : o.defineStored? k d = some o') :
    o.Upheld o' := by
  cases k with
  | index i => exact upheld_defineElement? hd h
  | name t => exact upheld_define? hd h
  | symbol s => exact upheld_define? hd h

/-- A map, a set or an iterator stays one, so its turns do not touch its properties. -/
theorem upheld_turn {kind : Kind} (h : Kind.Turn o.kind kind) : o.Upheld { o with kind } := by
  obtain ⟨prototype, extensible, properties, kind₀⟩ := o
  refine upheld_of_eq id (fun _ => rfl) fun k => ?_
  cases h <;> rfl

/-- Wherever its cursor goes, an iterator keeps its properties. -/
theorem upheld_cursor {source : IterationSource} {c : Cursor} (h : o.kind = .iterator source c)
    (c' : Cursor) : o.Upheld { o with kind := .iterator source c' } := by
  obtain ⟨prototype, extensible, properties, kind⟩ := o
  cases h
  exact upheld_of_eq id (fun _ => rfl) fun _ => rfl

/-- **Every revision by a consistent descriptor upholds integrity.** -/
theorem upheld_revision (h : Revision (fun d => d.isConsistent = true) o o') : o.Upheld o' := by
  cases h with
  | define k d hd _ h => exact upheld_defineStored? hd h
  | delete k _ h => exact upheld_delete? h
  | restrictLength d => exact upheld_restrictLength o d
  | resize length writable _ => exact upheld_resize o length writable
  | close => exact upheld_of_eq (fun _ => rfl) (fun _ => rfl) fun _ => rfl
  | turn h => exact upheld_turn h

end Object

/-! ## Machines -/

namespace Heap

variable {h h' : Heap}

/-- Where the objects that exist stay as they are, integrity is upheld. -/
theorem upheld_of_live
    (hlive : ∀ r : Ref, r.index < h.objects.size → h'.object r = h.object r) (r : Ref) :
    (h.object r).Upheld (h'.object r) := by
  rcases Nat.lt_or_ge r.index h.objects.size with hr | hr
  · rw [hlive r hr]
    exact .refl _
  · rw [object_of_size_le hr]
    exact Object.upheld_default _

theorem upheld_modify {r : Ref} {f : Object → Object} (hf : (h.object r).Upheld (f (h.object r)))
    (p : Ref) : (h.object p).Upheld ((h.modify r f).object p) := by
  rw [object_modify]
  split
  · next hp =>
    rw [hp.1]
    exact hf
  · exact .refl _

end Heap

/-- The iteration object and its next method are new, all other objects stay as they are. -/
theorem newIterationObject_live (proto : Ref) (next : Symbol) (source : IterationSource)
    (m : Machine) {r : Ref} (hr : r.index < m.size) :
    (Run.final (Engine.newIterationObject proto next source m)).heap.object r =
      m.heap.object r := by
  have hr : r.index < m.heap.objects.size := hr
  have hself : ¬ (r = ⟨m.heap.objects.size⟩ ∧ m.heap.objects.size < m.heap.objects.size + 2) := by
    rintro ⟨rfl, -⟩
    exact Nat.lt_irrefl _ hr
  show (Heap.modify ((m.heap.allocate _).2.allocate _).2 ⟨m.heap.objects.size⟩ _).object r = _
  rw [Heap.object_modify, Heap.size_allocate, Heap.size_allocate, if_neg hself,
    Heap.object_allocate, Heap.size_allocate, if_neg (by omega), Heap.object_allocate,
    if_neg (by omega)]

/-- Once the extensions are there, the integrity of all objects is upheld. -/
def Machine.Upheld (m m' : Machine) : Prop :=
  m.extensions.isSome = true →
    m'.extensions.isSome = true ∧ ∀ r, (m.heap.object r).Upheld (m'.heap.object r)

namespace Discipline

/-- Runs whose descriptors are consistent uphold integrity. -/
def integrity : Discipline where
  knows _ _ := True
  allows d := d.isConsistent = true
  scripted := True
  prompt := False
  keeps := Machine.Upheld
  knows_mono _ h := h
  knows_fresh _ _ := trivial
  knows_intrinsic _ _ := trivial
  keeps_refl _ h := ⟨h, fun _ => .refl _⟩
  keeps_trans h h' hx :=
    have hx₂ := h hx
    have hx₃ := h' hx₂.1
    ⟨hx₃.1, fun r => (hx₂.2 r).trans (hx₃.2 r)⟩
  keeps_change {m m'} h hx := by
    cases h with
    | beside hheap _ hextensions _ =>
      rw [hheap, hextensions]
      exact ⟨hx, fun _ => .refl _⟩
    | allocate o _ _ =>
      exact ⟨hx, Heap.upheld_of_live fun r hr => m.heap.object_allocate_of_lt o hr⟩
    | iteration proto next source _ _ =>
      exact ⟨hx, Heap.upheld_of_live fun r hr => newIterationObject_live proto next source m hr⟩
    | symbol description => exact ⟨hx, fun _ => .refl _⟩
    | revise r hrevision => exact ⟨hx, Heap.upheld_modify (Object.upheld_revision hrevision)⟩
    | relink r p hr _ _ =>
      refine ⟨hx, Heap.upheld_modify ?_⟩
      exact Object.upheld_of_eq id (fun hclosed => by simp [hr] at hclosed) fun _ => rfl
    | install hnone => simp [hnone] at hx
  keeps_visit _ h := h
  keeps_settle {m s m' iterator array c c'} _ _ _ _ _ _ h hx := by
    obtain ⟨hx', hheld⟩ := h hx
    refine ⟨hx', fun r => (hheld r).trans (Heap.upheld_modify ?_ r)⟩
    split
    · next source c₁ hkind => exact Object.upheld_cursor hkind c'
    · exact .refl _

end Discipline

/-! ## Operations -/

/-- A definition is by a consistent descriptor. -/
def Method.isConsistent : {α : Type} → Method α → Machine → Bool
  | _, .defineOwnProperty _ _ d, _ => d.isConsistent
  | _, _, _ => true

/-- One operation in which no property is ever defined by a descriptor of both kinds, so that it
does not matter what would happen then; or such an operation up to a method at which it is stopped,
with the state it has reached so far. -/
inductive ConsistentOperation (m : Machine) : Machine → Prop where
  | whole {α : Type} (n : Nat) (μ : Method α)
      (h : ∀ otherwise : {α : Type} → Method α → Run α,
        (watchedEngine Method.isConsistent otherwise n).answer μ m = (engine n).answer μ m) :
      ConsistentOperation m (Run.final ((engine n).answer μ m))
  | stopped {α : Type} (n : Nat) (μ : Method α) (proceed : {α : Type} → Method α → Machine → Bool) :
      ConsistentOperation m
        (Run.final ((watchedEngine (fun μ m => μ.isConsistent m && proceed μ m)
          (fun _ => Run.outOfFuel) n).answer μ m))

/-- What one operation does upholds integrity. -/
theorem ConsistentOperation.upheld {m m' : Machine} (h : ConsistentOperation m m') :
    m.Upheld m' := by
  have hallowed {α : Type} (μ : Method α) (m : Machine) (hμ : μ.isConsistent m = true) :
      μ.Allowed .integrity := by
    cases μ <;> first | exact hμ | trivial
  cases h with
  | whole n μ hsame =>
    rw [← hsame fun _ => Run.outOfFuel]
    have hmeets : (watchedEngine Method.isConsistent (fun _ => Run.outOfFuel) n).Meets
        .integrity := watchedEngine_meets trivial hallowed n
    exact (hmeets.answers μ m (fun _ _ => trivial) ⟨Nat.zero_le _, fun _ _ => trivial⟩).follows.keeps
  | stopped n μ proceed =>
    have hmeets : (watchedEngine (fun μ m => μ.isConsistent m && proceed μ m)
        (fun _ => Run.outOfFuel) n).Meets .integrity :=
      watchedEngine_meets trivial (fun μ m hμ => hallowed μ m (Bool.and_eq_true_iff.1 hμ).1) n
    exact (hmeets.answers μ m (fun _ _ => trivial) ⟨Nat.zero_le _, fun _ _ => trivial⟩).follows.keeps

/-- What a run of operations does upholds integrity. -/
theorem upheld_of_operations {m m' : Machine}
    (h : Relation.ReflTransGen ConsistentOperation m m') : m.Upheld m' := by
  induction h with
  | refl => exact Discipline.integrity.keeps_refl m
  | tail _ hlast ih => exact Discipline.integrity.keeps_trans ih hlast.upheld

theorem extensions_initialMachine {options : Options} (h : options.withoutExtensions = false) :
    (Session.initialMachine options).extensions.isSome = true := by
  obtain ⟨withoutExtensions, printInternals⟩ := options
  cases h
  cases printInternals <;> decide +kernel

/-- **Integrity is upheld.**  In a realm that starts with the extensions, between any two states
of a run of operations without descriptors of both kinds, every object upholds its integrity. -/
theorem integrity_upheld {options : Options} (hoptions : options.withoutExtensions = false)
    {m m' : Machine}
    (hm : Relation.ReflTransGen ConsistentOperation (Session.initialMachine options) m)
    (hm' : Relation.ReflTransGen ConsistentOperation m m') (r : Ref) :
    (m.heap.object r).Upheld (m'.heap.object r) := by
  have hextensions := (upheld_of_operations hm (extensions_initialMachine hoptions)).1
  exact (upheld_of_operations hm' hextensions).2 r

/-- The array prototype's length becomes read-only; an element beyond it is refused afterwards. -/
theorem integrity_upheld_arrayPrototype :
    ∃ m m' : Machine,
      Relation.ReflTransGen ConsistentOperation (Session.initialMachine ⟨false, false⟩) m ∧
        Relation.ReflTransGen ConsistentOperation m m' ∧
        (m.heap.object Intrinsic.arrayPrototype.ref).ownDescriptor .length =
          some (Object.lengthDescriptor 0 false) ∧
        (m.heap.object Intrinsic.arrayPrototype.ref).Upheld
          (m'.heap.object Intrinsic.arrayPrototype.ref) := by
  have hclose : ConsistentOperation (Session.initialMachine ⟨false, false⟩) _ :=
    .whole 1 (.defineOwnProperty Intrinsic.arrayPrototype.ref .length { writable := some false })
      fun _ => rfl
  have hstore : ConsistentOperation (Run.final ((engine 1).answer (.defineOwnProperty
      Intrinsic.arrayPrototype.ref .length { writable := some false })
        (Session.initialMachine ⟨false, false⟩))) _ :=
    .whole 1 (.defineOwnProperty Intrinsic.arrayPrototype.ref (.index 3) (.plain .null))
      fun _ => rfl
  refine ⟨_, _, .single hclose, .single hstore, by decide +kernel, ?_⟩
  exact integrity_upheld rfl (.single hclose) (.single hstore) _

end ObjectModel
