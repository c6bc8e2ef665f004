import Mathlib.Data.List.Nodup
import ObjectModel.Proofs.Hosting

/-!
# Descriptions

Keys, descriptors and lists pass through script-visible values and come back as they were: a
canonical key as a text or a symbol, a descriptor as an object with its fields, a list as an array.
The objects are new, and nothing else of the machine changes (`Machine.Grown`).

    toPropertyKey k.toValue gives k                                          (toPropertyKey_toValue)
    toDescriptor of what describes d gives d                                   (hosted_toDescriptor)
    listFromArrayLike of a new array of vs gives vs                       (hosted_listFromArrayLike)

The fields of a description are looked up on the prototype of objects as well, so its chain must
have none of their names.
-/

namespace ObjectModel

/-! ## Machines with further objects -/

/-- The second machine is the first with further objects and events. -/
def Machine.Grown (m m' : Machine) : Prop :=
  ∃ (fresh : Array Object) (events : List Event),
    m' = { m with
      heap := { m.heap with objects := m.heap.objects ++ fresh }
      events := events ++ m.events }

namespace Machine.Grown

variable {m m' m₁ m₂ m₃ : Machine} {r : Ref}

protected theorem refl (m : Machine) : m.Grown m := ⟨#[], [], by simp⟩

protected theorem trans (h : m₁.Grown m₂) (h' : m₂.Grown m₃) : m₁.Grown m₃ := by
  obtain ⟨fresh, events, rfl⟩ := h
  obtain ⟨fresh', events', rfl⟩ := h'
  exact ⟨fresh ++ fresh', events' ++ events, by simp [Array.append_assoc]⟩

protected theorem allocate (m : Machine) (o : Object) :
    m.Grown (m.withHeap (m.heap.allocate o).2) := ⟨#[o], [], rfl⟩

theorem size_le (h : m.Grown m') : m.size ≤ m'.size := by
  obtain ⟨fresh, events, rfl⟩ := h
  simp [Machine.size]

theorem extensions (h : m.Grown m') : m'.extensions = m.extensions := by
  obtain ⟨fresh, events, rfl⟩ := h
  rfl

/-- What there was is as it was. -/
theorem object (h : m.Grown m') (hr : r.index < m.size) :
    m'.heap.object r = m.heap.object r := by
  obtain ⟨fresh, events, rfl⟩ := h
  simp only [Heap.object, Array.getD_eq_getD_getElem?]
  rw [Array.getElem?_append_left hr]

/-- An object that there was can be changed in both. -/
theorem modify (h : m.Grown m') (hr : r.index < m.size) (f : Object → Object) :
    (m.withHeap (m.heap.modify r f)).Grown (m'.withHeap (m'.heap.modify r f)) := by
  obtain ⟨fresh, events, rfl⟩ := h
  refine ⟨fresh, events, ?_⟩
  have happend : (m.heap.objects ++ fresh).modify r.index f =
      m.heap.objects.modify r.index f ++ fresh := by
    apply Array.ext_getElem?
    intro i
    have hr : r.index < m.heap.objects.size := hr
    simp only [Array.getElem?_modify, Array.getElem?_append, Array.size_modify]
    by_cases hi : r.index = i
    · rw [if_pos hi, if_pos (hi ▸ hr), if_pos (hi ▸ hr), if_pos hi]
    · rw [if_neg hi, if_neg hi]
  simp only [Machine.withHeap, Heap.modify, happend]

/-- A further object can be changed. -/
theorem modify_fresh (h : m.Grown m') (hr : m.size ≤ r.index) (f : Object → Object) :
    m.Grown (m'.withHeap (m'.heap.modify r f)) := by
  obtain ⟨fresh, events, rfl⟩ := h
  refine ⟨fresh.modify (r.index - m.size) f, events, ?_⟩
  have happend : (m.heap.objects ++ fresh).modify r.index f =
      m.heap.objects ++ fresh.modify (r.index - m.size) f := by
    apply Array.ext_getElem?
    intro i
    have hr : m.heap.objects.size ≤ r.index := hr
    have hindex : m.size = m.heap.objects.size := rfl
    simp only [Array.getElem?_modify, Array.getElem?_append, hindex]
    by_cases hi : i < m.heap.objects.size
    · rw [if_pos hi, if_pos hi, if_neg (by omega)]
    · rw [if_neg hi, if_neg hi]
      by_cases hsame : r.index = i
      · rw [if_pos hsame, if_pos (by omega)]
      · rw [if_neg hsame, if_neg (by omega)]
  simp only [Machine.withHeap, Heap.modify, happend]

end Machine.Grown

namespace Heap

variable {h h' : Heap}

section Kinds

variable (hsize : h.objects.size ≤ h'.objects.size)
  (hkinds : ∀ r : Ref, r.index < h.objects.size → h'.kind r = h.kind r)

include hkinds in
/-- Following targets to a function needs no more fuel than it did. -/
theorem rootWithin_of_kinds {fuel : Nat} {r : Ref} {data : FunctionData}
    (hroot : h.kind (h.rootWithin fuel r) = .function data) (extra : Nat) :
    h'.rootWithin (fuel + extra) r = h.rootWithin fuel r := by
  have hstay {r : Ref} (hr : h.kind r = .function data) (fuel : Nat) :
      h'.rootWithin fuel r = r := by
    cases fuel with
    | zero => rfl
    | succ fuel =>
      simp only [rootWithin, hkinds r (live_of_kind (by simp [hr])), hr]
  induction fuel generalizing r with
  | zero => exact hstay hroot _
  | succ fuel ih =>
    rw [Nat.succ_add]
    cases hkind : h.kind r with
    | proxy target traps =>
      have hlive : r.index < h.objects.size := live_of_kind (by simp [hkind])
      simp only [rootWithin, hkind] at hroot
      simp only [rootWithin, hkinds r hlive, hkind]
      exact ih hroot
    | function _ =>
      simp only [rootWithin, hkind] at hroot
      rw [hstay (hkind.trans hroot)]
      simp only [rootWithin, hkind]
    | _ =>
      simp only [rootWithin, hkind] at hroot
      cases hroot

include hsize hkinds in
/-- What can be called stays so while objects keep their kinds. -/
theorem callable?_of_kinds {f : Ref} (hf : h.callable? (.object f) = some f) :
    h'.callable? (.object f) = some f := by
  cases hroot : h.kind (h.root f) with
  | function data =>
    obtain ⟨extra, hextra⟩ := Nat.exists_eq_add_of_le hsize
    have hsame : h'.root f = h.root f := by
      rw [root, root, hextra]
      exact rootWithin_of_kinds hkinds hroot extra
    have hkind : h'.kind (h.root f) = .function data :=
      (hkinds _ (live_of_kind (by simp [hroot]))).trans hroot
    simp only [callable?, hsame, hkind]
  | _ =>
    simp only [callable?, hroot] at hf
    cases hf

include hsize hkinds in
/-- A chain stays while its objects keep their kinds and prototypes. -/
theorem Chain.mono {o : Option Ref} {l : List Ref} (hl : h.Chain o l)
    (hprototypes : ∀ r : Ref, r.index < h.objects.size →
      (h'.object r).prototype = (h.object r).prototype) : h'.Chain o l := by
  refine hl.transfer fun r _ hlive hproxy =>
    ⟨Nat.lt_of_lt_of_le hlive hsize, ?_, hprototypes r hlive⟩
  have hkind : (h'.object r).kind = (h.object r).kind := hkinds r hlive
  unfold Object.isProxy at hproxy ⊢
  rw [hkind]
  exact hproxy

end Kinds

end Heap

namespace Machine.Grown

variable {m m' : Machine}

theorem callable? (h : m.Grown m') {f : Ref} (hf : m.heap.callable? (.object f) = some f) :
    m'.heap.callable? (.object f) = some f :=
  Heap.callable?_of_kinds h.size_le (fun _ hr => congrArg Object.kind (h.object hr)) hf

theorem chain (h : m.Grown m') {o : Option Ref} {l : List Ref} (hl : m.heap.Chain o l) :
    m'.heap.Chain o l :=
  hl.mono h.size_le (fun _ hr => congrArg Object.kind (h.object hr))
    fun _ hr => congrArg Object.prototype (h.object hr)

theorem firstOwn (h : m.Grown m') {o : Option Ref} {l : List Ref} (hl : m.heap.Chain o l)
    (k : Key) : m'.heap.firstOwn k l = m.heap.firstOwn k l := by
  induction hl with
  | done => rfl
  | link hlive _ _ ih =>
    rw [Heap.firstOwn_cons, Heap.firstOwn_cons, h.object hlive, ih]

end Machine.Grown

/-! ## Keys as values -/

namespace Text

theorem unitsOfChar_digitChar {d : Nat} (hd : d < 10) :
    unitsOfChar d.digitChar = [UInt16.ofNat (0x30 + d)] := by
  revert d
  decide

/-- The last digit stands at the end. -/
theorem units_ofNat (n : Nat) :
    (ofNat n).units =
      if n < 10 then [UInt16.ofNat (0x30 + n)]
      else (ofNat (n / 10)).units ++ [UInt16.ofNat (0x30 + n % 10)] := by
  simp only [ofNat, ofChars]
  rw [Nat.toDigits_eq_if (by decide)]
  split
  · next hn => simp [unitsOfChar_digitChar hn]
  · simp [unitsOfChar_digitChar (Nat.mod_lt n (by decide))]

theorem toNat_digit {d : Nat} (hd : d < 10) : (UInt16.ofNat (0x30 + d)).toNat = 0x30 + d := by
  rw [UInt16.toNat_ofNat']
  omega

theorem digitsValue_ofNat (n : Nat) : digitsValue (ofNat n).units = n := by
  induction n using Nat.strongRecOn with
  | ind n ih =>
    rw [units_ofNat]
    split
    · next hn =>
      simp only [digitsValue, List.foldl_cons, List.foldl_nil, toNat_digit hn]
      omega
    · next hn =>
      have hrest := ih (n / 10) (by omega)
      simp only [digitsValue] at hrest
      simp only [digitsValue, List.foldl_append, List.foldl_cons, List.foldl_nil, hrest,
        toNat_digit (Nat.mod_lt n (by decide))]
      omega

theorem isDigit_digit {d : Nat} (hd : d < 10) : isDigit (UInt16.ofNat (0x30 + d)) = true := by
  revert d
  decide

theorem all_isDigit_ofNat (n : Nat) : (ofNat n).units.all isDigit = true := by
  induction n using Nat.strongRecOn with
  | ind n ih =>
    rw [units_ofNat]
    split
    · next hn => rw [List.all_cons, isDigit_digit hn, List.all_nil, Bool.true_and]
    · next hn =>
      rw [List.all_append, ih (n / 10) (by omega), List.all_cons,
        isDigit_digit (Nat.mod_lt n (by decide)), List.all_nil, Bool.true_and, Bool.true_and]

theorem head?_ofNat {n : Nat} (hn : 0 < n) : ∃ u, (ofNat n).units.head? = some u ∧ u ≠ 0x30 := by
  induction n using Nat.strongRecOn with
  | ind n ih =>
    rw [units_ofNat]
    split
    · next hlt =>
      refine ⟨_, rfl, fun heq => ?_⟩
      have hval := congrArg UInt16.toNat heq
      rw [toNat_digit hlt] at hval
      have : (0x30 : UInt16).toNat = 0x30 := rfl
      omega
    · next hge =>
      obtain ⟨u, hu, hne⟩ := ih (n / 10) (by omega) (by omega)
      refine ⟨u, ?_, hne⟩
      rw [List.head?_append, hu]
      rfl

theorem length_ofNat_le {n digits : Nat} (hn : n < 10 ^ (digits + 1)) :
    (ofNat n).length ≤ digits + 1 := by
  induction digits generalizing n with
  | zero =>
    rw [length, units_ofNat, if_pos (by simpa using hn)]
    exact Nat.le_refl 1
  | succ digits ih =>
    rw [length, units_ofNat]
    split
    · simp
    · have hrest := ih (n := n / 10) (by omega)
      rw [length] at hrest
      simp only [List.length_append, List.length_cons, List.length_nil]
      omega

theorem pos_of_length {n : Nat} (hn : 1 < (ofNat n).length) : 0 < n := by
  rcases Nat.eq_zero_or_pos n with rfl | hpos
  · rw [length, units_ofNat] at hn
    simp at hn
  · exact hpos

theorem units_ofNat_ne_nil (n : Nat) : (ofNat n).units ≠ [] := by
  rw [units_ofNat]
  split <;> simp

/-- The decimal form of an index is read as the index. -/
theorem arrayIndex?_ofNat {i : Nat} (hi : i < indexLimit) : (ofNat i).arrayIndex? = some i := by
  have hlength : ¬ 10 < (ofNat i).length := by
    have hdigits : i < 10 ^ (9 + 1) := Nat.lt_trans hi (by decide)
    exact Nat.not_lt.2 (length_ofNat_le hdigits)
  have hnonempty : (ofNat i).isEmpty = false := by
    simpa [isEmpty] using units_ofNat_ne_nil i
  have hzero : ¬ (1 < (ofNat i).length ∧ (ofNat i).units.head? = some 0x30) := by
    rintro ⟨hlong, hhead⟩
    obtain ⟨u, hu, hne⟩ := head?_ofNat (pos_of_length hlong)
    rw [hu] at hhead
    exact hne (Option.some.inj hhead)
  unfold arrayIndex?
  rw [if_neg (by simp [hnonempty, hlength, all_isDigit_ofNat]), if_neg (by simpa using hzero)]
  simp only [digitsValue_ofNat]
  exact if_pos hi

end Text

/-- The key is the one that its value is read as. -/
def Key.Canonical : Key → Prop
  | .index i => i < indexLimit
  | .name t => t.arrayIndex? = none
  | .symbol _ => True

/-- A canonical key comes back from its value. -/
theorem Engine.toPropertyKey_toValue {k : Key} (hk : k.Canonical) (eng : Engine) :
    eng.toPropertyKey k.toValue = pure k := by
  have htext (t : Text) : eng.toPropertyKey (.text t) = pure (.ofText t) := rfl
  cases k with
  | index i => rw [Key.toValue, htext, Key.ofText, Text.arrayIndex?_ofNat hk]
  | name t =>
    have ht : t.arrayIndex? = none := hk
    rw [Key.toValue, htext, Key.ofText, ht]
  | symbol s => rfl

theorem Engine.toPropertyKeys_toValue {ks : List Key} (hks : ∀ k ∈ ks, k.Canonical)
    (eng : Engine) : eng.toPropertyKeys (ks.map Key.toValue) = pure ks := by
  induction ks with
  | nil => rfl
  | cons k rest ih =>
    rw [List.map_cons, toPropertyKeys, toPropertyKey_toValue (hks k List.mem_cons_self),
      ih fun k hk => hks k (List.mem_cons_of_mem _ hk)]
    rfl

/-! ## Descriptors as objects -/

namespace Descriptor

/-- The names of the fields. -/
def fieldNames : List Key := ["value", "writable", "get", "set", "enumerable", "configurable"]

/-- An accessor function as a value. -/
def accessorValue (f : Option Ref) : Value := f.elim .undefined .object

/-- The fields of a description. -/
def fields (d : Descriptor) : List (Key × Value) :=
  (d.value.map fun v => (("value" : Key), v)).toList
    ++ (d.writable.map fun b => (("writable" : Key), Value.bool b)).toList
    ++ (d.get.map fun f => (("get" : Key), accessorValue f)).toList
    ++ (d.set.map fun f => (("set" : Key), accessorValue f)).toList
    ++ (d.enumerable.map fun b => (("enumerable" : Key), Value.bool b)).toList
    ++ (d.configurable.map fun b => (("configurable" : Key), Value.bool b)).toList

/-- A field of the description. -/
def field? (d : Descriptor) (k : Key) : Option Value := d.fields.lookup k

/-- The object that describes a property. -/
def describing (d : Descriptor) : Object :=
  { Object.new (some Intrinsic.objectPrototype.ref) .ordinary with
    properties := Engine.plainTable d.fields }

/-- The accessor functions can be called. -/
def Callable (h : Heap) (d : Descriptor) : Prop :=
  ∀ f, d.get = some (some f) ∨ d.set = some (some f) → h.callable? (.object f) = some f

theorem nodup_fieldNames : fieldNames.Nodup := by decide

theorem sublist_field {α : Type} (key : Key) (f : α → Value) (o : Option α) :
    ((o.map fun a => (key, f a)).toList.map Prod.fst).Sublist [key] := by
  cases o with
  | none => exact List.nil_sublist _
  | some a => exact .refl _

theorem nodup_fields (d : Descriptor) : (d.fields.map Prod.fst).Nodup := by
  refine .sublist ?_ nodup_fieldNames
  simp only [fields, List.map_append]
  have hvalue := sublist_field "value" id d.value
  have hwritable := sublist_field "writable" .bool d.writable
  have hget := sublist_field "get" accessorValue d.get
  have hset := sublist_field "set" accessorValue d.set
  have henumerable := sublist_field "enumerable" .bool d.enumerable
  have hconfigurable := sublist_field "configurable" .bool d.configurable
  exact ((((hvalue.append hwritable).append hget).append hset).append henumerable).append
    hconfigurable

theorem lookup_field {α : Type} (k key : Key) (f : α → Value) (o : Option α) :
    (o.map fun a => (key, f a)).toList.lookup k = if k = key then o.map f else none := by
  cases o with
  | none => simp
  | some a =>
    by_cases hk : k = key
    · simp [hk]
    · rw [if_neg hk, List.lookup_eq_none_iff]
      simpa using hk

/-- Each field is looked up as the attribute. -/
theorem field?_eq (d : Descriptor) :
    d.field? "value" = d.value ∧ d.field? "writable" = d.writable.map .bool ∧
      d.field? "get" = d.get.map accessorValue ∧ d.field? "set" = d.set.map accessorValue ∧
      d.field? "enumerable" = d.enumerable.map .bool ∧
      d.field? "configurable" = d.configurable.map .bool := by
  have hne := nodup_fieldNames
  have hne' := List.nodup_reverse.2 nodup_fieldNames
  simp only [fieldNames, List.reverse_cons, List.reverse_nil, List.nil_append, List.cons_append,
    List.nodup_cons, List.mem_cons, List.not_mem_nil, not_or, or_false] at hne hne'
  have hvalue (k : Key) := lookup_field k "value" id d.value
  simp only [id, Option.map_id] at hvalue
  simp only [field?, fields, List.lookup_append, hvalue, lookup_field]
  simp [hne, hne']

end Descriptor

/-- The objects from the prototype of objects up have no property named like a field. -/
structure Heap.FieldFree (h : Heap) (l : List Ref) : Prop where
  chain : h.Chain (some Intrinsic.objectPrototype.ref) l
  absent : ∀ k ∈ Descriptor.fieldNames, h.firstOwn k l = none

theorem Machine.Grown.fieldFree {m m' : Machine} (h : m.Grown m') {l : List Ref}
    (hfree : m.heap.FieldFree l) : m'.heap.FieldFree l :=
  ⟨h.chain hfree.chain, fun k hk => (h.firstOwn hfree.chain k).trans (hfree.absent k hk)⟩

section Describing

variable {host : Host} {n : Nat} {m : Machine} {r : Ref} {d : Descriptor} {l : List Ref}

theorem fromDescriptor_apply (d : Descriptor) (m : Machine) :
    Engine.fromDescriptor d m = .ok ⟨m.size⟩ (m.withHeap (m.heap.allocate d.describing).2) :=
  newPlainObject_apply d.fields m

theorem fromDescriptor?_some (d : Descriptor) (m : Machine) :
    Engine.fromDescriptor? (some d) m =
      .ok (.object ⟨m.size⟩) (m.withHeap (m.heap.allocate d.describing).2) :=
  Run.bind_ok (fromDescriptor_apply d m)

theorem ownDescriptor_describing (d : Descriptor) (k : Key) :
    d.describing.ownDescriptor k = (d.field? k).map .plain := by
  show ((Engine.plainTable d.fields).find? k).map Property.toDescriptor = _
  rw [find?_plainTable_eq d.nodup_fields, Option.map_map]
  rfl

variable (hr : m.heap.object r = d.describing) (hlive : r.index < m.size)
  (hfree : m.heap.FieldFree l) (hn : l.length + 1 < n)

include hr hlive hfree hn

/-- A field of a describing object is its own or none. -/
theorem hosted_field?_describing {k : Key} (hk : k ∈ Descriptor.fieldNames) :
    (hostedEngine host n).field? r k m = .ok (d.field? k) m := by
  have hchain : m.heap.Chain (some r) (r :: l) := by
    refine .link hlive ?_ ?_
    · rw [hr]
      rfl
    · rw [hr]
      exact hfree.chain
  have hfirst : m.heap.firstOwn k (r :: l) = (d.field? k).map .plain := by
    rw [Heap.firstOwn_cons, hr, ownDescriptor_describing]
    cases d.field? k with
    | some v => rfl
    | none => exact hfree.absent k hk
  cases hfield : d.field? k with
  | some v =>
    rw [hfield] at hfirst
    exact hosted_field?_some hchain hn hfirst rfl
  | none =>
    rw [hfield] at hfirst
    exact hosted_field?_none hchain hn hfirst

omit hr hlive hfree hn in
theorem toAccessor_accessorValue {half : AccessorHalf} {f : Option Ref}
    (hf : ∀ g, f = some g → m.heap.callable? (.object g) = some g) :
    Engine.toAccessor half (Descriptor.accessorValue f) m = .ok f m := by
  cases f with
  | none => rfl
  | some g =>
    have hg := hf g rfl
    show (Run.callable? (.object g) >>= _) m = _
    simp only [Run.bind_apply, Run.callable?, hg]
    rfl

/-- **A described property is read back as its descriptor.** -/
theorem hosted_toDescriptor (hcallable : d.Callable m.heap)
    (hkind : (d.isAccessor && d.isData) = false) :
    (hostedEngine host n).toDescriptor (.object r) m = .ok d m := by
  obtain ⟨hvalue, hwritable, hget, hset, henumerable, hconfigurable⟩ := d.field?_eq
  have hfield {k : Key} (hk : k ∈ Descriptor.fieldNames) :
      (hostedEngine host n).field? r k m = .ok (d.field? k) m :=
    hosted_field?_describing hr hlive hfree hn hk
  have haccessor {k : Key} (hk : k ∈ Descriptor.fieldNames) (half : AccessorHalf)
      {f : Option (Option Ref)} (hf : d.field? k = f.map Descriptor.accessorValue)
      (hcall : ∀ g, f = some (some g) → m.heap.callable? (.object g) = some g) :
      (hostedEngine host n).accessorField? r k half m = .ok f m := by
    simp only [Engine.accessorField?, Run.bind_apply, hfield hk, hf]
    cases f with
    | none => rfl
    | some f =>
      simp only [Option.map_some, Run.bind_apply,
        toAccessor_accessorValue fun g hg => hcall g (congrArg some hg)]
      rfl
  have htruthy (b : Option Bool) : (b.map Value.bool).map Value.truthy = b := by cases b <;> rfl
  have hgetter := haccessor (k := "get") (by decide) .getter hget
    fun g hg => hcallable g (.inl hg)
  have hsetter := haccessor (k := "set") (by decide) .setter hset
    fun g hg => hcallable g (.inr hg)
  simp only [Engine.toDescriptor, Run.bind_apply, hfield (k := "enumerable") (by decide),
    hfield (k := "configurable") (by decide), hfield (k := "value") (by decide),
    hfield (k := "writable") (by decide), hgetter, hsetter, hvalue, hwritable, henumerable,
    hconfigurable, htruthy]
  rw [if_neg (by simp [hkind])]
  rfl

end Describing

/-! ## Lists as arrays -/

section Lists

variable {host : Host} {n : Nat} {m : Machine} {r : Ref} {vs : List Value}

theorem nodup_listed (vs : List Value) : ((listed vs).map Prod.fst).Nodup := by
  have hkeys : (listed vs).map Prod.fst = (vs.zipIdx.map Prod.snd).map Key.index := by
    rw [listed, List.map_map, List.map_map]
    rfl
  rw [hkeys, List.zipIdx_map_snd]
  exact List.Nodup.map (fun _ _ h => Key.index.inj h) List.nodup_range'

theorem mem_listed {vs : List Value} {i : Nat} {v : Value} (hi : vs[i]? = some v) :
    (Key.index i, v) ∈ listed vs :=
  List.mem_map.2 ⟨(v, i), List.mem_zipIdx_iff_getElem?.2 hi, rfl⟩

theorem ownDescriptor_listing {vs : List Value} {i : Nat} {v : Value} (hi : vs[i]? = some v) :
    (Object.listing vs).ownDescriptor (.index i) = some (.plain v) := by
  have hlength : Key.index i ≠ .length := fun h => Key.length_ne_index i h.symm
  simp only [Object.listing, Object.new, Object.ownDescriptor, if_neg hlength,
    find?_plainTable_of_mem (nodup_listed vs) (mem_listed hi)]
  rfl

variable (hr : m.heap.object r = .listing vs) (hn : 2 ≤ n)

include hr hn

theorem hosted_get_listing {k : Key} {v : Value} {d : Descriptor}
    (hd : (Object.listing vs).ownDescriptor k = some d) (hv : d.value = some v) :
    (hostedEngine host n).get r k m = .ok v m := by
  obtain ⟨n, rfl⟩ : ∃ n', n = n' + 2 := ⟨n - 2, by omega⟩
  have hproxy : (m.heap.object r).isProxy = false := by
    rw [hr]
    rfl
  refine (Run.kind_bind_of_not_proxy hproxy _ _).trans ?_
  simp only [Engine.ordinaryGet, Run.bind_apply, hosted_getOwnProperty hproxy, hr, hd, hv]
  rfl

theorem hosted_elements_listing {count start : Nat} (hcount : start + count = vs.length)
    (hlimit : vs.length < indexLimit) :
    (hostedEngine host n).elements r count start m = .ok (vs.drop start) m := by
  induction count generalizing start with
  | zero =>
    rw [List.drop_eq_nil_of_le (by omega)]
    rfl
  | succ count ih =>
    have hstart : start < vs.length := by omega
    have hposition : Key.ofPosition start = .index start :=
      Key.ofPosition_of_le (Nat.le_of_lt (Nat.lt_trans hstart hlimit))
    have hget : (hostedEngine host n).get r (.index start) m = .ok vs[start] m :=
      hosted_get_listing hr hn (ownDescriptor_listing (List.getElem?_eq_getElem hstart)) rfl
    have hrest : start + 1 + count = vs.length := by omega
    simp only [Engine.elements, Run.bind_apply, hposition, hget, ih hrest]
    rw [List.drop_eq_getElem_cons hstart]
    rfl

/-- **A listed value is read back.** -/
theorem hosted_listFromArrayLike (hlimit : vs.length < indexLimit) :
    (hostedEngine host n).listFromArrayLike (.object r) m = .ok vs m := by
  have hlength : (hostedEngine host n).lengthOfArrayLike r m = .ok vs.length m := by
    have hget : (hostedEngine host n).get r .length m = .ok (.ofNat vs.length) m :=
      hosted_get_listing hr hn (d := Object.lengthDescriptor vs.length true) rfl rfl
    have hle : vs.length ≤ Engine.lengthLimit := by
      have hlt : indexLimit < Engine.lengthLimit := by decide
      omega
    simp only [Engine.lengthOfArrayLike, Run.bind_apply, hget, Engine.toLength_ofNat _ hle]
  simp only [Engine.listFromArrayLike, Run.bind_apply, hlength]
  rw [if_neg (by omega)]
  exact hosted_elements_listing hr hn (by omega) hlimit

end Lists

end ObjectModel
