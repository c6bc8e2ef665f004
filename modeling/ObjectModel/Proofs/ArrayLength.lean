import ObjectModel.Proofs.Forwarding
import ObjectModel.Proofs.Regularity

/-!
# The length of an array

The length of an array stands apart from its properties, and its definition is decided case by case
from the descriptor, the old length and whether that is writable.  `Object.setLength` defines a
length that is stored like any other property: it is checked and changed as they are, and the
elements beyond it are removed from the top.

An array is compared with an object that stores its length (`Object.Stores`).  Reading and removing
the length and defining it by a primitive value do the same to both, with one exception: a
definition that restates a read-only length and does not say whether it is writable is refused by
the array (`length_as_stored`).
-/

namespace ObjectModel

/-! ## Lengths stored as properties -/

namespace Object

/-- Defines a property, with the verdict. -/
def defined (o : Object) (k : Key) (d : Descriptor) : Object × Bool :=
  match o.define? k d with
  | some o => (o, true)
  | none => (o, false)

/-- The own indexes from a number on, in descending order. -/
def indexesDown (o : Object) (start : Nat) : List Nat :=
  ((o.ownKeys.filterMap Key.index?).filter (start ≤ ·)).reverse

/-- Removes elements in the given order.  Where one may not be removed it is the last, and the
length is defined again; at the end a length that should be read-only becomes so. -/
def truncate (d : Descriptor) (writable : Bool) (o : Object) : List Nat → Object × Bool
  | [] => if writable then (o, true) else ((o.defined .length { writable := some false }).1, true)
  | i :: rest =>
    match o.delete? (.index i) with
    | some o => o.truncate d writable rest
    | none =>
      let d := { d with value := some (.ofNat (i + 1)) }
      let d := if writable then d else { d with writable := some false }
      ((o.defined .length d).1, false)

/-- Defines the stored length of an object, which is `old` before. -/
def setLength (o : Object) (old : Nat) (d : Descriptor) : Except ErrorKind (Object × Bool) :=
  match d.value with
  | none => .ok (o.defined .length d)
  | some v =>
    match v.number? with
    | none => .error .typeError
    | some n =>
      if !n.numericEq (.ofNat n.modWord) then .error .rangeError
      else
        let d := { d with value := some (.ofNat n.modWord) }
        if old ≤ n.modWord then .ok (o.defined .length d)
        else if (o.ownDescriptor .length).any (·.writable == some false) then .ok (o, false)
        else
          let writable := d.writable != some false
          let d := if writable then d else { d with writable := some true }
          match o.define? .length d with
          | none => .ok (o, false)
          | some o => .ok (o.truncate d writable (o.indexesDown n.modWord))

/-- The property that an array's length is when it is stored. -/
def lengthProperty (length : Nat) (writable : Bool) : Property :=
  .data (.ofNat length) writable false false

/-- The second object is the first, an array, with its length stored before all other properties. -/
structure Stores (a s : Object) (length : Nat) (writable : Bool) : Prop where
  kind : a.kind = .array length writable
  ordinary : s.kind = .ordinary
  prototype : s.prototype = a.prototype
  extensible : s.extensible = a.extensible
  entries : s.properties.entries =
    (.length, lengthProperty length writable) :: a.properties.entries

end Object

/-- The definition gives an array the length that it has, without saying whether it is writable. -/
def Descriptor.restates (d : Descriptor) (length : Nat) : Bool :=
  d.writable.isNone && d.configurable != some true && d.enumerable != some true &&
    (d.value.bind Value.number?).any fun n =>
      n.numericEq (.ofNat n.modWord) && n.modWord == length

/-! ## Both have the same properties -/

namespace Object.Stores

variable {a s : Object} {length : Nat} {writable : Bool}

theorem find?_length (h : a.Stores s length writable) :
    s.properties.find? .length = some (lengthProperty length writable) := by
  rw [← Slots.mem_entries, h.entries]
  exact List.mem_cons_self

theorem find?_ne (h : a.Stores s length writable) {k : Key} (hk : k ≠ .length) :
    s.properties.find? k = a.properties.find? k := by
  apply Option.ext
  intro p
  rw [← Slots.mem_entries, ← Slots.mem_entries, h.entries, List.mem_cons, or_iff_right]
  rintro ⟨⟩
  exact hk rfl

/-- The array itself does not store its length. -/
theorem absent (h : a.Stores s length writable) : a.properties.find? .length = none := by
  rw [Option.eq_none_iff_forall_ne_some]
  intro p hp
  have hnodup := s.properties.nodup_keys
  rw [h.entries, List.map_cons, List.nodup_cons] at hnodup
  exact hnodup.1 (List.mem_map.2 ⟨_, Slots.mem_entries.2 hp, rfl⟩)

theorem isOrdinary (h : a.Stores s length writable) : s.Ordinary := by
  refine ⟨?_, ?_⟩
  · simp [isProxy, h.ordinary]
  · simp [isArray, h.ordinary]

/-- **Both have the same own properties.** -/
theorem ownDescriptor (h : a.Stores s length writable) (k : Key) :
    s.ownDescriptor k = a.ownDescriptor k := by
  rw [h.isOrdinary.ownDescriptor]
  by_cases hk : k = .length
  · subst hk
    rw [h.find?_length, ownDescriptor_length h.kind]
    rfl
  · rw [h.find?_ne hk, ownDescriptor_eq fun _ => hk]

/-- Another length is the same property with another value. -/
theorem withLength (h : a.Stores s length writable) (length' : Nat) (writable' : Bool) :
    (a.withLength length' writable').Stores
      { s with properties := s.properties.insert .length (lengthProperty length' writable') }
      length' writable' := by
  refine ⟨rfl, h.ordinary, h.prototype, h.extensible, ?_⟩
  have hlength : (s.properties.find? .length).isSome = true := by
    rw [h.find?_length]
    rfl
  rw [Slots.entries_insert_of_mem hlength, h.entries, List.map_cons, if_pos rfl]
  refine congrArg _ ?_
  conv_rhs => rw [← List.map_id (Object.withLength a length' writable').properties.entries]
  refine List.map_congr_left fun e he => if_neg fun hkey => ?_
  have hfind : a.properties.find? e.1 = some e.2 := Slots.mem_entries.1 he
  rw [hkey, h.absent] at hfind
  cases hfind

/-- An element is removed from both. -/
theorem delete?_some (h : a.Stores s length writable) {i : Nat} {a' : Object}
    (ha' : a.delete? (.index i) = some a') :
    ∃ s', s.delete? (.index i) = some s' ∧ a'.Stores s' length writable := by
  have hne : Key.index i ≠ .length := fun heq => Key.length_ne_index i heq.symm
  unfold Object.delete? at ha' ⊢
  rw [h.find?_ne hne]
  cases hfind : a.properties.find? (.index i) with
  | none =>
    rw [hfind] at ha'
    cases ha'
    exact ⟨s, rfl, h⟩
  | some p =>
    rw [hfind] at ha'
    dsimp only at ha' ⊢
    split at ha'
    · next hconfigurable =>
      cases ha'
      rw [if_pos hconfigurable]
      refine ⟨_, rfl, h.kind, h.ordinary, h.prototype, h.extensible, ?_⟩
      show (s.properties.remove (.index i)).entries = _ :: (a.properties.remove (.index i)).entries
      rw [PropertyTable.entries_remove, PropertyTable.entries_remove, h.entries, List.filter_cons_of_pos]
      simpa using hne.symm
    · cases ha'

theorem delete?_none (h : a.Stores s length writable) {i : Nat}
    (ha : a.delete? (.index i) = none) : s.delete? (.index i) = none := by
  have hne : Key.index i ≠ .length := fun heq => Key.length_ne_index i heq.symm
  unfold Object.delete? at ha ⊢
  rw [h.find?_ne hne]
  cases hfind : a.properties.find? (.index i) with
  | none =>
    rw [hfind] at ha
    cases ha
  | some p =>
    rw [hfind] at ha
    dsimp only at ha ⊢
    split at ha
    · cases ha
    · next hconfigurable => rw [if_neg hconfigurable]

theorem indexes (h : a.Stores s length writable) :
    s.properties.indexes = a.properties.indexes := by
  have hindex : Key.length.index? = none := by decide
  rw [PropertyTable.indexes, h.entries, List.filterMap_cons, hindex]
  rfl

end Object.Stores

namespace PropertyTable

variable (t : PropertyTable)

theorem isIndex_of_mem_names {k : Key} (hk : k ∈ t.names ++ t.symbols) : k.isIndex = false := by
  rcases List.mem_append.1 hk with hk | hk
  · have hfilter := (List.mem_filter.1 hk).2
    simp only [Bool.and_eq_true, Bool.not_eq_true'] at hfilter
    exact hfilter.1
  · have hfilter := (List.mem_filter.1 hk).2
    cases k with
    | symbol s => rfl
    | _ => cases hfilter

/-- The length of an array is listed after its indexes. -/
theorem insertLength_keys :
    Object.insertLength t.keys =
      (t.indexes.mergeSort (· ≤ ·)).map Key.index ++ .length :: (t.names ++ t.symbols) := by
  have hindexes : ∀ k ∈ (t.indexes.mergeSort (· ≤ ·)).map Key.index, k.isIndex = true := by
    intro k hk
    obtain ⟨i, -, rfl⟩ := List.mem_map.1 hk
    rfl
  have hrest : (t.names ++ t.symbols).takeWhile Key.isIndex = [] ∧
      (t.names ++ t.symbols).dropWhile Key.isIndex = t.names ++ t.symbols := by
    cases hlist : t.names ++ t.symbols with
    | nil => exact ⟨rfl, rfl⟩
    | cons k rest =>
      have hk : k.isIndex = false := t.isIndex_of_mem_names (by simp [hlist])
      exact ⟨List.takeWhile_cons_of_neg (by simp [hk]), List.dropWhile_cons_of_neg (by simp [hk])⟩
  rw [Object.insertLength, keys, List.append_assoc, List.takeWhile_append_of_pos hindexes,
    List.dropWhile_append_of_pos hindexes, hrest.1, hrest.2, List.append_nil]

theorem filterMap_index?_keys : t.keys.filterMap Key.index? = t.indexes.mergeSort (· ≤ ·) := by
  have hrest : (t.names ++ t.symbols).filterMap Key.index? = [] := by
    rw [List.filterMap_eq_nil_iff]
    intro k hk
    have hindex := t.isIndex_of_mem_names hk
    cases k with
    | index i => cases hindex
    | _ => rfl
  rw [keys, List.append_assoc, List.filterMap_append, hrest, List.append_nil, List.filterMap_map]
  exact List.filterMap_some

/-- The indexes from a number on are those of the keys, in their order. -/
theorem indexesFrom_eq (start : Nat) :
    t.indexesFrom start = (t.keys.filterMap Key.index?).filter (start ≤ ·) := by
  rw [filterMap_index?_keys, indexesFrom]
  refine List.Perm.eq_of_pairwise' (List.pairwise_mergeSort' (· ≤ ·) _)
    ((List.pairwise_mergeSort' (· ≤ ·) _).filter _) ?_
  exact (List.mergeSort_perm _ _).trans ((List.mergeSort_perm _ _).symm.filter _)

end PropertyTable

/-- **Both list the same keys.** -/
theorem Object.Stores.ownKeys {a s : Object} {length : Nat} {writable : Bool}
    (h : a.Stores s length writable) : s.ownKeys = a.ownKeys := by
  have hname : Key.length.isIndex = false ∧ Key.length.isSymbol = false := by decide
  have hsymbols : s.properties.symbols = a.properties.symbols := by
    rw [PropertyTable.symbols, h.entries, List.map_cons, List.filter_cons_of_neg (by simp [hname])]
    rfl
  have hnames : s.properties.names = .length :: a.properties.names := by
    rw [PropertyTable.names, h.entries, List.map_cons, List.filter_cons_of_pos (by simp [hname])]
    rfl
  have hkeys : a.ownKeys = insertLength a.properties.keys := by
    unfold Object.ownKeys
    rw [h.kind]
  rw [h.isOrdinary.ownKeys, hkeys, PropertyTable.insertLength_keys, PropertyTable.keys, h.indexes,
    hnames, hsymbols, List.append_assoc]
  rfl

/-! ## Definitions of a stored length -/

/-- The descriptor asks for what a property that is neither enumerable nor configurable cannot
become. -/
def Descriptor.Barred (d : Descriptor) (v : Value) (writable : Bool) : Prop :=
  d.configurable = some true ∨ d.enumerable = some true ∨
    writable = false ∧ (d.writable = some true ∨ ∃ w, d.value = some w ∧ w ≠ v)

theorem Descriptor.writable_ne_false (d : Descriptor) :
    (d.writable != some false) = d.writable.getD true := by
  rcases d.writable with _ | _ | _ <;> rfl

namespace Property

variable {writable : Bool} {v : Value} {d : Descriptor}

theorem admits_fixed (hd : d.isAccessor = false) :
    admits (.data v writable false false) d = true ↔ ¬ d.Barred v writable := by
  have hgeneric : (d.isGeneric || d.isAccessor == isAccessor (.data v writable false false)) =
      true := by simp [hd, isAccessor, data]
  have henumerable : (d.enumerable.isNone || d.enumerable == some false) = true ↔
      d.enumerable ≠ some true := by
    rcases d.enumerable with _ | _ | _ <;> simp
  have hvalue : (d.value.isNone || d.value == some v) = true ↔
      ¬ ∃ w, d.value = some w ∧ w ≠ v := by
    cases d.value <;> simp
  have hexpand : admits (.data v writable false false) d =
      (d.configurable != some true && (d.enumerable.isNone || d.enumerable == some false) &&
        (d.isGeneric || d.isAccessor == isAccessor (.data v writable false false)) &&
        (writable || (d.writable != some true && (d.value.isNone || d.value == some v)))) := rfl
  rw [hexpand, hgeneric, Bool.and_true, Bool.and_eq_true, Bool.and_eq_true, henumerable,
    Bool.or_eq_true, Bool.and_eq_true, hvalue, bne_iff_ne, bne_iff_ne, Descriptor.Barred]
  cases writable <;> simp [and_assoc]

theorem merge_fixed (hd : d.isAccessor = false) (hc : d.configurable ≠ some true)
    (he : d.enumerable ≠ some true) :
    merge (.data v writable false false) d =
      .data (d.value.getD v) (d.writable.getD writable) false false := by
  have hfalse {b : Option Bool} (hb : b ≠ some true) : b.getD false = false := by
    rcases b with _ | _ | _ <;> simp_all
  simp [merge, data, hd, hfalse hc, hfalse he]

end Property

namespace Object.Stores

variable {a s : Object} {length : Nat} {writable : Bool} {d : Descriptor}

theorem define?_accessor (h : a.Stores s length writable) (hd : d.isAccessor = true) :
    s.define? .length d = none := by
  have hgeneric : d.isGeneric = false := by simp [Descriptor.isGeneric, hd]
  have hrefused : Property.admits (lengthProperty length writable) d = false := by
    simp [Property.admits, lengthProperty, Property.data, Property.isAccessor, hd, hgeneric]
  simp [define?, h.find?_length, Property.revise, hrefused]

theorem define?_of_barred (h : a.Stores s length writable) (hd : d.isAccessor = false)
    (hbarred : d.Barred (.ofNat length) writable) : s.define? .length d = none := by
  have hrefused : ¬ Property.admits (lengthProperty length writable) d = true :=
    fun hadmits => (Property.admits_fixed hd).1 hadmits hbarred
  rw [define?, h.find?_length, Property.revise, if_neg hrefused]
  rfl

/-- A definition that is not barred gives the array another length. -/
theorem define?_of_not_barred (h : a.Stores s length writable) (hd : d.isAccessor = false)
    (hfree : ¬ d.Barred (.ofNat length) writable) {length' : Nat}
    (hvalue : d.value.getD (.ofNat length) = .ofNat length') :
    ∃ s', s.define? .length d = some s' ∧ (a.withLength length' (d.writable.getD writable)).Stores
      s' length' (d.writable.getD writable) := by
  have hadmits : Property.admits (lengthProperty length writable) d = true :=
    (Property.admits_fixed hd).2 hfree
  have hmerge : Property.merge (lengthProperty length writable) d =
      lengthProperty length' (d.writable.getD writable) := by
    rw [lengthProperty, Property.merge_fixed hd (fun hc => hfree (.inl hc))
      fun he => hfree (.inr (.inl he)), hvalue]
    rfl
  refine ⟨_, ?_, h.withLength length' (d.writable.getD writable)⟩
  rw [define?, h.find?_length, Property.revise, if_pos hadmits, hmerge]
  rfl

/-- The length of an array is what it is. -/
theorem withLength_self (h : a.Stores s length writable) : a.withLength length writable = a := by
  rw [Object.withLength, ← h.kind]

end Object.Stores

/-! ## Both are changed alike -/

/-- An array and an object that stores its length, with the same verdict. -/
def Object.Alike (r t : Object × Bool) : Prop :=
  r.2 = t.2 ∧ ∃ length writable, r.1.Stores t.1 length writable

namespace Object.Stores

variable {a s : Object} {length : Nat} {writable : Bool} {d : Descriptor}

theorem defined_refused (h : a.Stores s length writable) (hd : s.define? .length d = none) :
    Alike (a, false) (s.defined .length d) := by
  unfold defined
  rw [hd]
  exact ⟨rfl, length, writable, h⟩

theorem defined_granted (h : a.Stores s length writable) (hd : d.isAccessor = false)
    (hfree : ¬ d.Barred (.ofNat length) writable) {length' : Nat}
    (hvalue : d.value.getD (.ofNat length) = .ofNat length') :
    Alike (a.withLength length' (d.writable.getD writable), true) (s.defined .length d) := by
  obtain ⟨s', hdefine, hs'⟩ := h.define?_of_not_barred hd hfree hvalue
  unfold defined
  rw [hdefine]
  exact ⟨rfl, _, _, hs'⟩

/-- **Without a value a length is defined alike.** -/
theorem restrictLength (h : a.Stores s length writable) (hvalue : d.value = none) :
    Alike (a.restrictLength d) (s.defined .length d) := by
  have hsame : d.value.getD (.ofNat length) = .ofNat length := by rw [hvalue]; rfl
  unfold Object.restrictLength
  rw [h.kind]
  dsimp only
  cases hd : d.isAccessor with
  | true =>
    rw [if_pos (by simp)]
    exact h.defined_refused (h.define?_accessor hd)
  | false =>
    by_cases hfixed : d.configurable = some true ∨ d.enumerable = some true
    · have hbarred : d.Barred (.ofNat length) writable :=
        hfixed.elim .inl fun he => .inr (.inl he)
      rw [if_pos (by simpa using hfixed)]
      exact h.defined_refused (h.define?_of_barred hd hbarred)
    · rw [if_neg (by simpa using hfixed)]
      rw [not_or] at hfixed
      by_cases hbarred : d.Barred (.ofNat length) writable
      · obtain ⟨rfl, hwritable⟩ := (hbarred.resolve_left hfixed.1).resolve_left hfixed.2
        have hwritable : d.writable = some true := by simpa [hvalue] using hwritable
        rw [hwritable]
        exact h.defined_refused (h.define?_of_barred hd hbarred)
      · have hgranted := h.defined_granted hd hbarred hsame
        cases writable with
        | true => rwa [Descriptor.writable_ne_false]
        | false =>
          have hwritable : d.writable ≠ some true := fun hw => hbarred (.inr (.inr ⟨rfl, .inl hw⟩))
          have hreadOnly : d.writable.getD false = false := by
            rcases hw : d.writable with _ | _ | _ <;> simp_all
          rw [hreadOnly, h.withLength_self] at hgranted
          rw [if_pos Bool.not_false, bne_iff_ne.2 hwritable]
          exact hgranted

end Object.Stores

/-! ### Smaller lengths -/

namespace Object

variable {a s : Object} {length : Nat} {d : Descriptor}

theorem delete?_withLength (a : Object) (length : Nat) (writable : Bool) (k : Key) :
    (a.withLength length writable).delete? k =
      (a.delete? k).map (·.withLength length writable) := by
  have hfind : (a.withLength length writable).properties.find? k = a.properties.find? k := rfl
  unfold delete?
  rw [hfind]
  cases a.properties.find? k with
  | none => rfl
  | some p =>
    dsimp only
    split <;> rfl

/-- Elements are removed whatever the length is. -/
theorem deleteIndexes_withLength (a : Object) (length : Nat) (writable : Bool) (is : List Nat) :
    (a.withLength length writable).deleteIndexes is =
      ((a.deleteIndexes is).1.withLength length writable, (a.deleteIndexes is).2) := by
  induction is generalizing a with
  | nil => rfl
  | cons i rest ih =>
    rw [deleteIndexes, deleteIndexes, delete?_withLength]
    cases a.delete? (.index i) with
    | none => rfl
    | some a' => exact ih a'

/-- The array after the elements were removed. -/
def settled (r : Object × Option Nat) (length : Nat) (writable : Bool) : Object × Bool :=
  match r with
  | (a, none) => (a.withLength length writable, true)
  | (a, some i) => (a.withLength (i + 1) writable, false)

/-- **Elements are removed alike, and the length is defined where the removal stopped.** -/
theorem Stores.truncate (h : a.Stores s length true) (hd : d.isAccessor = false)
    (hc : d.configurable ≠ some true) (he : d.enumerable ≠ some true)
    (hwritable : d.writable.getD true = true) (writable : Bool) (is : List Nat) :
    Alike (settled (a.deleteIndexes is) length writable) (s.truncate d writable is) := by
  induction is generalizing a s with
  | nil =>
    cases writable with
    | true => exact ⟨rfl, length, true, h.withLength_self.symm ▸ h⟩
    | false =>
      have hgranted := h.defined_granted (d := { writable := some false }) rfl
        (by simp [Descriptor.Barred]) rfl
      exact ⟨rfl, hgranted.2⟩
  | cons i rest ih =>
    rw [deleteIndexes, Object.truncate]
    cases hdelete : a.delete? (.index i) with
    | some a' =>
      obtain ⟨s', hdelete', h'⟩ := h.delete?_some hdelete
      rw [hdelete']
      exact ih h'
    | none =>
      rw [h.delete?_none hdelete]
      dsimp only [settled]
      refine ⟨rfl, ?_⟩
      cases writable with
      | true =>
        have hgranted := h.defined_granted (d := { d with value := some (.ofNat (i + 1)) }) hd
          (by simp [Descriptor.Barred, hc, he]) rfl
        rw [show ({ d with value := some (.ofNat (i + 1)) } : Descriptor).writable.getD true = true
          from hwritable] at hgranted
        exact hgranted.2
      | false =>
        exact (h.defined_granted
          (d := { d with value := some (.ofNat (i + 1)), writable := some false }) hd
          (by simp [Descriptor.Barred, hc, he]) rfl).2

theorem Stores.indexesDown {writable : Bool} (h : a.Stores s length writable) (start : Nat) :
    s.indexesDown start = (a.properties.indexesFrom start).reverse := by
  rw [Object.indexesDown, h.isOrdinary.ownKeys, ← PropertyTable.indexesFrom_eq,
    PropertyTable.indexesFrom, h.indexes]
  rfl

/-- **A smaller length is defined alike.** -/
theorem Stores.shrink (h : a.Stores s length true) (hd : d.isAccessor = false)
    (hc : d.configurable ≠ some true) (he : d.enumerable ≠ some true) {start : Nat} 
    (hvalue : d.value = some (.ofNat start)) (hwritable : d.writable.getD true = true)
    (writable : Bool) :
    ∃ s', s.define? .length d = some s' ∧
      Alike (a.shrink start writable) (s'.truncate d writable (s'.indexesDown start)) := by
  have hvalue' : d.value.getD (.ofNat length) = .ofNat start := by rw [hvalue]; rfl
  obtain ⟨s', hdefine, h'⟩ :=
    h.define?_of_not_barred hd (by simp [Descriptor.Barred, hc, he]) hvalue'
  rw [hwritable] at h'
  refine ⟨s', hdefine, ?_⟩
  have htruncate := h'.truncate hd hc he hwritable writable (a.properties.indexesFrom start).reverse
  rw [deleteIndexes_withLength] at htruncate
  have hindexes : s'.indexesDown start = (a.properties.indexesFrom start).reverse :=
    h'.indexesDown start
  rw [hindexes, Object.shrink]
  cases hdeleted : a.deleteIndexes (a.properties.indexesFrom start).reverse with
  | mk a' stop =>
    rw [hdeleted] at htruncate
    cases stop with
    | none => exact htruncate
    | some i => exact htruncate

end Object

/-! ### All lengths -/

/-- As `Alike`, but the array refuses what the object does where a read-only length is restated. -/
structure Object.Agree (restated : Bool) (r t : Object × Bool) : Prop where
  stores : ∃ length writable, r.1.Stores t.1 length writable
  verdict : r.2 = (t.2 && !restated)
  granted : restated = true → t.2 = true

theorem Object.Alike.agree {r t : Object × Bool} (h : Alike r t) : Agree false r t :=
  ⟨h.2, by simp [h.1], fun hrestated => by cases hrestated⟩

namespace Object.Stores

variable {a s : Object} {length : Nat} {writable : Bool} {d : Descriptor}

/-- **A length at least as large is defined alike, or restated.** -/
theorem grow (h : a.Stores s length writable) (hd : d.isAccessor = false)
    (hc : d.configurable ≠ some true) (he : d.enumerable ≠ some true) {new : Nat}
    (hvalue : d.value = some (.ofNat new)) (hle : length ≤ new) (hmax : new ≤ Number.maxWord) :
    Agree (!writable && d.writable.isNone && new == length) (a.resize new (d.writable.getD true))
      (s.defined .length d) := by
  have hresize : a.resize new (d.writable.getD true) =
      if writable then (a.withLength new (d.writable.getD true), true)
      else (a, new == length && !d.writable.getD true) := by
    rw [resize, h.kind]
    exact if_pos hle
  have hvalue' : d.value.getD (.ofNat length) = .ofNat new := by rw [hvalue]; rfl
  rw [hresize]
  cases writable with
  | true =>
    exact (h.defined_granted hd (by simp [Descriptor.Barred, hc, he]) hvalue').agree
  | false =>
    have hgranted (heq : new = length) (hw : d.writable ≠ some true) :
        Alike (a, true) (s.defined .length d) := by
      subst heq
      have hgranted := h.defined_granted hd
        (by simp [Descriptor.Barred, hc, he, hw, hvalue]) hvalue'
      have hreadOnly : d.writable.getD false = false := by
        rcases hwritable : d.writable with _ | _ | _ <;> simp_all
      rwa [hreadOnly, h.withLength_self] at hgranted
    by_cases heq : new = length
    · have hequal : (new == length) = true := beq_iff_eq.2 heq
      cases hw : d.writable with
      | none =>
        -- the object accepts what says nothing new; the array takes it for a writable length
        obtain ⟨hverdict, hstores⟩ := hgranted heq (by simp [hw])
        exact ⟨hstores, by simp [hequal], fun _ => hverdict.symm⟩
      | some w =>
        cases w with
        | true =>
          have hbarred : d.Barred (.ofNat length) false := .inr (.inr ⟨rfl, .inl hw⟩)
          simpa using (h.defined_refused (h.define?_of_barred hd hbarred)).agree
        | false => simpa [hequal] using (hgranted heq (by simp [hw])).agree
    · have hbarred : d.Barred (.ofNat length) false := by
        refine .inr (.inr ⟨rfl, .inr ⟨_, hvalue, fun hsame => heq ?_⟩⟩)
        have hnew : new < 2 ^ 53 := Nat.lt_of_le_of_lt hmax (by decide)
        injection hsame with hsame
        exact Number.ofNat_inj hnew (Nat.lt_of_le_of_lt hle hnew) hsame
      have hdistinct : (new == length) = false := beq_eq_false_iff_ne.2 heq
      simpa [hdistinct] using (h.defined_refused (h.define?_of_barred hd hbarred)).agree

/-- A length that is fixed as enumerable or configurable is refused by the object. -/
theorem define?_fixed (h : a.Stores s length writable) (hd : d.isAccessor = false)
    (hfixed : d.configurable = some true ∨ d.enumerable = some true) :
    s.define? .length d = none :=
  h.define?_of_barred hd (hfixed.elim .inl fun he => .inr (.inl he))

theorem readOnly_eq (h : a.Stores s length writable) :
    (s.ownDescriptor .length).any (·.writable == some false) = !writable := by
  rw [h.ownDescriptor, ownDescriptor_length h.kind]
  cases writable <;> rfl

variable {v : Value} {n : Number} (hvalue : d.value = some v) (hnumber : v.number? = some n)
  (hexact : n.numericEq (.ofNat n.modWord) = true)

include hvalue hnumber hexact

theorem restates_eq (length : Nat) :
    d.restates length = (d.writable.isNone && d.configurable != some true &&
      d.enumerable != some true && n.modWord == length) := by
  simp [Descriptor.restates, hvalue, hnumber, hexact]

theorem setLength_of_le (hle : length ≤ n.modWord) (s : Object) :
    s.setLength length d = .ok (s.defined .length { d with value := some (.ofNat n.modWord) }) := by
  simp [Object.setLength, hvalue, hnumber, hexact, hle]

/-- A smaller length is first defined as writable. -/
theorem setLength_of_lt (h : a.Stores s length true) (hlt : n.modWord < length) :
    ∃ d' : Descriptor, d'.isAccessor = d.isAccessor ∧ d'.configurable = d.configurable ∧
      d'.enumerable = d.enumerable ∧ d'.value = some (.ofNat n.modWord) ∧
      d'.writable.getD true = true ∧
      s.setLength length d =
        match s.define? .length d' with
        | none => .ok (s, false)
        | some s' => .ok (s'.truncate d' (d.writable.getD true) (s'.indexesDown n.modWord)) := by
  have heq : s.setLength length d =
      let d' := if d.writable != some false then { d with value := some (.ofNat n.modWord) }
        else { d with value := some (.ofNat n.modWord), writable := some true }
      match s.define? .length d' with
      | none => .ok (s, false)
      | some s' => .ok (s'.truncate d' (d.writable != some false) (s'.indexesDown n.modWord)) := by
    simp [Object.setLength, hvalue, hnumber, hexact, Nat.not_le.2 hlt, h.readOnly_eq]
  rw [d.writable_ne_false] at heq
  cases hwritable : d.writable.getD true with
  | true =>
    rw [hwritable] at heq
    exact ⟨{ d with value := some (.ofNat n.modWord) }, rfl, rfl, rfl, rfl, hwritable, heq⟩
  | false =>
    rw [hwritable] at heq
    exact ⟨{ d with value := some (.ofNat n.modWord), writable := some true }, rfl, rfl, rfl, rfl,
      rfl, heq⟩

/-- A definition that would make the length enumerable or configurable is refused. -/
theorem setLength_fixed (h : a.Stores s length writable) (hd : d.isAccessor = false)
    (hfixed : d.configurable = some true ∨ d.enumerable = some true) :
    ∃ t, s.setLength length d = .ok t ∧ Alike (a, false) t := by
  by_cases hle : length ≤ n.modWord
  · exact ⟨_, setLength_of_le hvalue hnumber hexact hle s,
      h.defined_refused (h.define?_fixed hd hfixed)⟩
  · cases writable with
    | false =>
      refine ⟨(s, false), ?_, rfl, length, false, h⟩
      simp [Object.setLength, hvalue, hnumber, hexact, hle, h.readOnly_eq]
    | true =>
      obtain ⟨d', hd', hc, he, -, -, heq⟩ :=
        setLength_of_lt hvalue hnumber hexact h (Nat.lt_of_not_le hle)
      rw [h.define?_fixed (hd'.trans hd) (hc ▸ he ▸ hfixed)] at heq
      exact ⟨_, heq, rfl, length, true, h⟩

/-- **By a number a length is defined alike, or restated.** -/
theorem setLength (h : a.Stores s length writable) (hd : d.isAccessor = false) :
    ∃ t, s.setLength length d = .ok t ∧ Agree (!writable && d.restates length)
      (if d.configurable == some true || d.enumerable == some true then (a, false)
        else a.resize n.modWord (d.writable.getD true)) t := by
  have hrestates := restates_eq hvalue hnumber hexact length
  by_cases hfixed : d.configurable = some true ∨ d.enumerable = some true
  · obtain ⟨t, ht, halike⟩ := setLength_fixed hvalue hnumber hexact h hd hfixed
    have hnot : d.restates length = false := by
      rcases hfixed with hc | he
      · simp [hrestates, hc]
      · simp [hrestates, he]
    rw [if_pos (by simpa using hfixed), hnot, Bool.and_false]
    exact ⟨t, ht, halike.agree⟩
  · rw [if_neg (by simpa using hfixed)]
    rw [not_or] at hfixed
    rw [bne_iff_ne.2 hfixed.1, bne_iff_ne.2 hfixed.2, Bool.and_true, Bool.and_true] at hrestates
    by_cases hle : length ≤ n.modWord
    · refine ⟨_, setLength_of_le hvalue hnumber hexact hle s, ?_⟩
      rw [hrestates, ← Bool.and_assoc]
      exact h.grow (d := { d with value := some (.ofNat n.modWord) }) hd hfixed.1 hfixed.2 rfl hle
        n.modWord_le
    · have hresize : a.resize n.modWord (d.writable.getD true) =
          if writable then a.shrink n.modWord (d.writable.getD true) else (a, false) := by
        rw [resize, h.kind]
        exact if_neg hle
      have hdistinct : (n.modWord == length) = false := beq_eq_false_iff_ne.2 (by omega)
      rw [hrestates, hdistinct, Bool.and_false, Bool.and_false, hresize]
      cases writable with
      | false =>
        refine ⟨(s, false), ?_, ⟨length, false, h⟩, rfl, nofun⟩
        simp [Object.setLength, hvalue, hnumber, hexact, hle, h.readOnly_eq]
      | true =>
        obtain ⟨d', hd', hc, he, hvalue', hwritable', heq⟩ :=
          setLength_of_lt hvalue hnumber hexact h (Nat.lt_of_not_le hle)
        obtain ⟨s', hdefine, halike⟩ := h.shrink (hd'.trans hd) (hc ▸ hfixed.1) (he ▸ hfixed.2)
          hvalue' hwritable' (d.writable.getD true)
        rw [hdefine] at heq
        exact ⟨_, heq, halike.agree⟩

end Object.Stores

/-! ## Arrays of a realm -/

/-- The array with its length stored. -/
def Object.storing (a : Object) (length : Nat) (writable : Bool) : Object :=
  { a with
    kind := .ordinary
    properties := PropertyTable.empty.insertAll
      ((.length, lengthProperty length writable) :: a.properties.entries) }

theorem Object.stores_storing {a : Object} {length : Nat} {writable : Bool} (ha : a.Regular)
    (hkind : a.kind = .array length writable) :
    a.Stores (a.storing length writable) length writable := by
  refine ⟨hkind, rfl, rfl, rfl, ?_⟩
  have habsent : Key.length ∉ a.properties.entries.map Prod.fst := by
    rintro hmem
    obtain ⟨⟨k, p⟩, he, rfl⟩ := List.mem_map.1 hmem
    have hfind := Slots.mem_entries.1 he
    rw [(ha length writable hkind).1] at hfind
    cases hfind
  exact Slots.entries_insertAll (List.nodup_cons.2 ⟨habsent, a.properties.nodup_keys⟩)
    fun e _ => Slots.find?_empty e.1

section Operations

variable {m : Machine} {o : Ref} {length : Nat} {writable : Bool} {n : Nat}

theorem engine_defineLength (hkind : m.heap.kind o = .array length writable) (d : Descriptor) :
    (engine (n + 1)).defineOwnProperty o .length d m = (engine n).defineLength o d m := by
  have hproxy : (m.heap.object o).isProxy = false := by
    simp [Object.isProxy, show (m.heap.object o).kind = _ from hkind]
  refine (Run.kind_bind_of_not_proxy hproxy _ _).trans ?_
  simp only [Engine.ordinaryDefine, Run.bind_apply, Run.kind, hkind, if_true]

theorem engine_deleteLength (hkind : m.heap.kind o = .array length writable) :
    (engine (n + 1)).deleteProperty o .length m = .ok false m := by
  have hproxy : (m.heap.object o).isProxy = false := by
    simp [Object.isProxy, show (m.heap.object o).kind = _ from hkind]
  refine (Run.kind_bind_of_not_proxy hproxy _ _).trans ?_
  simp only [Engine.ordinaryDelete, Run.bind_apply, Run.kind, hkind, if_true, Run.pure_apply]

end Operations

/-- The end of a run on an array, compared with the outcome for an object that stores its length:
the same error, or the same verdict and the same properties.  Where the length is restated the array
refuses what the object accepts. -/
def Machine.EndsAsStored (m : Machine) (o : Ref) (restated : Bool)
    (run : EStateM.Result Halt Machine Bool) : Except ErrorKind (Object × Bool) → Prop
  | .error kind =>
    ∃ e m', run = .error (.thrown e) m' ∧ m.Grown m' ∧ Session.errorKind? m'.heap e = some kind
  | .ok (s, verdict) =>
    (∃ a, run = .ok (verdict && !restated) (m.replace o a) ∧
      (∃ length writable, a.Stores s length writable) ∧
      (∀ k, a.ownDescriptor k = s.ownDescriptor k) ∧ a.ownKeys = s.ownKeys) ∧
    (restated = true → verdict = true)

theorem Object.Agree.endsAsStored {m : Machine} {o : Ref} {restated : Bool}
    {run : EStateM.Result Halt Machine Bool} {r t : Object × Bool} (h : Agree restated r t)
    (hrun : run = .ok r.2 (m.replace o r.1)) : m.EndsAsStored o restated run (.ok t) := by
  obtain ⟨length, writable, hstores⟩ := h.stores
  refine ⟨⟨r.1, ?_, h.stores, fun k => (hstores.ownDescriptor k).symm, hstores.ownKeys.symm⟩,
    h.granted⟩
  rw [hrun, h.verdict]

/-- **The length of an array behaves like a stored property**, but a definition that restates a
read-only length without saying whether it is writable is refused.  Reading, removing and defining
the length by a primitive value give the same answers, throw the same errors and leave the same
array as for an object that stores it. -/
theorem length_as_stored {m : Machine} (hm : m.Attained) {o : Ref} {length : Nat} {writable : Bool}
    (hkind : m.heap.kind o = .array length writable) {d : Descriptor}
    (hconsistent : d.isConsistent = true) (hprimitive : ∀ v, d.value = some v → v.IsPrimitive)
    (n : Nat) :
    (∃ s, (m.heap.object o).Stores s length writable) ∧
    ∀ s, (m.heap.object o).Stores s length writable →
      (engine (n + 1)).getOwnProperty o .length m = .ok (s.ownDescriptor .length) m ∧
      ((engine (n + 1)).deleteProperty o .length m = .ok false m ∧ s.delete? .length = none) ∧
      m.EndsAsStored o (!writable && d.restates length)
        ((engine (n + 1)).defineOwnProperty o .length d m) (s.setLength length d) := by
  have hproxy : (m.heap.object o).isProxy = false := by
    simp [Object.isProxy, show (m.heap.object o).kind = _ from hkind]
  refine ⟨⟨_, Object.stores_storing (hm.regular.objects o) hkind⟩, fun s hs => ⟨?_, ⟨?_, ?_⟩, ?_⟩⟩
  · rw [hs.ownDescriptor, ← hostedEngine_none]
    exact hosted_getOwnProperty hproxy
  · exact engine_deleteLength hkind
  · simp [Object.delete?, hs.find?_length, Object.lengthProperty, Property.data]
  · rw [engine_defineLength hkind, Engine.defineLength_primitive hprimitive]
    cases hvalue : d.value with
    | none =>
      have hrestates : d.restates length = false := by simp [Descriptor.restates, hvalue]
      have hdefined : s.setLength length d = .ok (s.defined .length d) := by
        simp [Object.setLength, hvalue]
      rw [hdefined, hrestates, Bool.and_false]
      exact (hs.restrictLength hvalue).agree.endsAsStored rfl
    | some v =>
      have hdata : d.isAccessor = false := by
        simpa [Descriptor.isConsistent, Descriptor.isData, hvalue] using hconsistent
      cases hnumber : v.number? with
      | none =>
        have herror : s.setLength length d = .error .typeError := by
          simp [Object.setLength, hvalue, hnumber]
        rw [herror]
        simp only [Option.map_some, hnumber]
        exact fail_apply .symbolAsNumber m
      | some number =>
        by_cases hexact : number.numericEq (.ofNat number.modWord) = true
        · obtain ⟨t, ht, hagree⟩ := hs.setLength hvalue hnumber hexact hdata
          rw [ht]
          refine hagree.endsAsStored ?_
          simp only [Option.map_some, hnumber, hexact, Bool.not_true, Bool.false_eq_true, if_false]
          split
          · rw [Machine.replace_self]
            rfl
          · rfl
        · have herror : s.setLength length d = .error .rangeError := by
            simp [Object.setLength, hvalue, hnumber, hexact]
          rw [herror]
          simp only [Option.map_some, hnumber, hexact, Bool.not_false, if_true]
          exact fail_apply .arrayLength m

/-! ### An array with an element that stays -/

/-- An array of three numbers. -/
def Machine.threeNumbers : Machine :=
  Run.final ((engine 9).answer (.evaluate none (.array [.value (.ofNat 7), .value (.ofNat 8),
    .value (.ofNat 9)])) (Session.initialMachine ⟨true, false⟩))

/-- Its middle element cannot be removed. -/
def Machine.fixedElement : Machine :=
  Run.final ((engine 1).answer (.defineOwnProperty ⟨46⟩ (.index 1) { configurable := some false })
    Machine.threeNumbers)

/-- Its length is read-only. -/
def Machine.fixedLength : Machine :=
  Run.final ((engine 1).answer (.defineOwnProperty ⟨46⟩ .length { writable := some false })
    Machine.fixedElement)

theorem Machine.attained_fixedElement : Machine.fixedElement.Attained := by
  have hnumbers : Machine.threeNumbers.Attained := by
    have hliteral : ∀ r, ¬ Expr.RefersTo r
        (.array [.value (.ofNat 7), .value (.ofNat 8), .value (.ofNat 9)]) := by
      intro r
      simp [Value.ofNat]
    exact .evaluate 9 hliteral (.initial _)
  have hsize : 46 < Machine.threeNumbers.size := by decide +kernel
  refine .answer 1 (.defineOwnProperty ⟨46⟩ (.index 1) { configurable := some false })
    (fun r hr => ?_) hnumbers
  rcases hr with rfl | ⟨_, hvalue, -⟩ | ⟨_, hget, -⟩ | ⟨_, hset, -⟩
  · exact hsize
  · cases hvalue
  · cases hget
  · cases hset

theorem Machine.attained_fixedLength : Machine.fixedLength.Attained := by
  have hsize : 46 < Machine.fixedElement.size := by decide +kernel
  refine .answer 1 (.defineOwnProperty ⟨46⟩ .length _) (fun r hr => ?_)
    Machine.attained_fixedElement
  rcases hr with rfl | ⟨_, hvalue, -⟩ | ⟨_, hget, -⟩ | ⟨_, hset, -⟩
  · exact hsize
  · cases hvalue
  · cases hget
  · cases hset

/-- The length and whether it is writable. -/
def Kind.length? : Kind → Option (Nat × Bool)
  | .array length writable => some (length, writable)
  | _ => none

theorem Kind.eq_of_length? {kind : Kind} {length : Nat} {writable : Bool}
    (h : kind.length? = some (length, writable)) : kind = .array length writable := by
  cases kind with
  | array length' writable' =>
    cases h
    rfl
  | _ => cases h

/-- The removal of all elements stops at the middle one as it does where the length is stored; a
read-only length is not stated again. -/
theorem length_as_stored_fixedElement :
    (Machine.fixedElement.Attained ∧ Machine.fixedElement.heap.kind ⟨46⟩ = .array 3 true ∧
      ∃ s, (Machine.fixedElement.heap.object ⟨46⟩).Stores s 3 true ∧
        Machine.fixedElement.EndsAsStored ⟨46⟩ false
          ((engine 1).defineOwnProperty ⟨46⟩ .length
            { value := some (.ofNat 0), writable := some false } Machine.fixedElement)
          (s.setLength 3 { value := some (.ofNat 0), writable := some false })) ∧
    Machine.fixedLength.Attained ∧ Machine.fixedLength.heap.kind ⟨46⟩ = .array 3 false ∧
      ∃ s, (Machine.fixedLength.heap.object ⟨46⟩).Stores s 3 false ∧
        Machine.fixedLength.EndsAsStored ⟨46⟩ true
          ((engine 1).defineOwnProperty ⟨46⟩ .length { value := some (.ofNat 3) }
            Machine.fixedLength)
          (s.setLength 3 { value := some (.ofNat 3) }) := by
  have helement : (Machine.fixedElement.heap.kind ⟨46⟩).length? = some (3, true) := by
    decide +kernel
  have hfixed : (Machine.fixedLength.heap.kind ⟨46⟩).length? = some (3, false) := by
    decide +kernel
  have hrestates : Descriptor.restates { value := some (.ofNat 3) } 3 = true := by decide +kernel
  have hm := Machine.attained_fixedElement
  have hm' := Machine.attained_fixedLength
  -- from here on the machines are not evaluated any more
  generalize Machine.fixedLength = m' at *
  generalize Machine.fixedElement = m at *
  have hprimitive {d : Descriptor} {x : Number} (hd : d.value = some (.number x)) :
      ∀ v, d.value = some v → v.IsPrimitive := by
    intro v hv r hr
    rw [hd, hr] at hv
    cases hv
  have hopen {d : Descriptor} (hd : d.isConsistent = true)
      (hvalue : ∀ v, d.value = some v → v.IsPrimitive) :
      ∃ s, (m.heap.object ⟨46⟩).Stores s 3 true ∧ m.EndsAsStored ⟨46⟩ false
        ((engine 1).defineOwnProperty ⟨46⟩ .length d m) (s.setLength 3 d) := by
    obtain ⟨⟨s, hs⟩, hstored⟩ :=
      length_as_stored hm (Kind.eq_of_length? helement) hd hvalue 0
    exact ⟨s, hs, (hstored s hs).2.2⟩
  have hclosed {d : Descriptor} (hd : d.isConsistent = true)
      (hvalue : ∀ v, d.value = some v → v.IsPrimitive) (hrestates : d.restates 3 = true) :
      ∃ s, (m'.heap.object ⟨46⟩).Stores s 3 false ∧ m'.EndsAsStored ⟨46⟩ true
        ((engine 1).defineOwnProperty ⟨46⟩ .length d m') (s.setLength 3 d) := by
    obtain ⟨⟨s, hs⟩, hstored⟩ :=
      length_as_stored hm' (Kind.eq_of_length? hfixed) hd hvalue 0
    have hends := (hstored s hs).2.2
    rw [hrestates] at hends
    exact ⟨s, hs, hends⟩
  exact ⟨⟨hm, Kind.eq_of_length? helement, hopen rfl (hprimitive rfl)⟩, hm',
    Kind.eq_of_length? hfixed, hclosed rfl (hprimitive rfl) hrestates⟩

end ObjectModel
