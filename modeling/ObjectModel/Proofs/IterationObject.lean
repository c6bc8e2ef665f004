import Mathlib.Tactic.MkIffOfInductiveProp
import ObjectModel.Proofs.Extensions
import ObjectModel.Proofs.Listing
import ObjectModel.Proofs.Mirror

/-!
# Iteration objects and their proxies

An iteration over an object is an iteration object behind a proxy.  While the builtin prototypes
are as they were made (`Machine.Pristine`), its next method, called on the proxy or on what an
enumeration of the proxy gives, is one step of the iteration object
(`Machine.Iterates.iteratorNext`), and the iterator method of either gives itself
(`Machine.Iterates.getIterator`).

`iterationSource_apply` says what a new iteration walks over, and `newEnumerable_apply` that it is
such an iteration object.
-/

namespace ObjectModel

/-! ## Reading a property -/

section Reading

variable {n : Nat} {m : Machine} {o p target : Ref} {k : Key} {receiver : Value}

theorem engine_getFor_forwarded (hp : m.heap.kind p = .proxy target .enumeratesTarget) :
    (engine (n + 1)).getFor p k receiver m = (engine n).getFor target k receiver m :=
  Run.kind_bind_of_proxy hp _ _

theorem engine_getOwnProperty_forwarded (hp : m.heap.kind p = .proxy target .enumeratesTarget) :
    (engine (n + 1)).getOwnProperty p k m = (engine n).getOwnProperty target k m :=
  Run.kind_bind_of_proxy hp _ _

variable (ho : (m.heap.object o).isProxy = false)

include ho

theorem engine_getFor_data {d : Descriptor} {v : Value}
    (hd : (m.heap.object o).ownDescriptor k = some d) (hv : d.value = some v) :
    (engine (n + 2)).getFor o k receiver m = .ok v m := by
  refine (Run.kind_bind_of_not_proxy ho _ _).trans ?_
  rw [Engine.ordinaryGet, Run.bind_ok (engine_getOwnProperty ho)]
  simp only [hd, hv]
  rfl

theorem engine_getFor_accessor {d : Descriptor}
    (hd : (m.heap.object o).ownDescriptor k = some d) (hv : d.value = none) :
    (engine (n + 2)).getFor o k receiver m = (engine (n + 1)).callGetter d.get.join receiver m := by
  refine (Run.kind_bind_of_not_proxy ho _ _).trans ?_
  rw [Engine.ordinaryGet, Run.bind_ok (engine_getOwnProperty ho)]
  simp only [hd, hv]

theorem engine_getFor_inherited {parent : Ref} (hd : (m.heap.object o).ownDescriptor k = none)
    (hparent : (m.heap.object o).prototype = some parent) :
    (engine (n + 2)).getFor o k receiver m = (engine (n + 1)).getFor parent k receiver m := by
  have hheap : Run.heap m = .ok m.heap m := rfl
  refine (Run.kind_bind_of_not_proxy ho _ _).trans ?_
  rw [Engine.ordinaryGet, Run.bind_ok (engine_getOwnProperty ho)]
  simp only [hd]
  rw [Run.bind_ok hheap, Heap.prototypeOf_eq ho, hparent]

/-- A property that is missing on an object without a prototype is undefined. -/
theorem engine_getFor_missing (hd : (m.heap.object o).ownDescriptor k = none)
    (hparent : (m.heap.object o).prototype = none) :
    (engine (n + 2)).getFor o k receiver m = .ok .undefined m := by
  have hheap : Run.heap m = .ok m.heap m := rfl
  refine (Run.kind_bind_of_not_proxy ho _ _).trans ?_
  rw [Engine.ordinaryGet, Run.bind_ok (engine_getOwnProperty ho)]
  simp only [hd]
  rw [Run.bind_ok hheap, Heap.prototypeOf_eq ho, hparent]
  rfl

end Reading

/-- What is done with the property of an object that was read. -/
theorem Engine.invoke_apply {eng : Engine} {o f : Ref} {k : Key} {m : Machine}
    (hf : eng.getFor o k (.object o) m = .ok (.object f) m) (arguments : List Value) :
    eng.invoke (.object o) k arguments m = eng.call (.object f) (.object o) arguments m := by
  have hget : eng.getV (.object o) k m = .ok (.object f) m := hf
  rw [invoke, Run.bind_ok hget]

/-- The iterator is what the iterator method gives. -/
theorem Engine.getIterator_apply {eng : Engine} {v : Value} {f p : Ref} {data : FunctionData}
    {m m' : Machine} (hget : eng.getV v .iterator m = .ok (.object f) m)
    (hf : m.heap.kind f = .function data) (hcall : eng.call (.object f) v [] m = .ok (.object p) m') :
    eng.getIterator v m = .ok p m' := by
  have hmethod : eng.getMethod v .iterator m = .ok (some f) m := by
    rw [getMethod, Run.bind_ok hget]
    refine (congrFun (if_neg Bool.false_ne_true) m).trans ?_
    simp only [Run.bind_apply, Run.callable?, Heap.callable?_function hf]
    rfl
  rw [getIterator, Run.bind_ok hmethod]
  exact Run.bind_ok hcall

/-! ## The builtin prototypes -/

/-- The object has a data property whose value is a builtin function. -/
def Heap.HoldsNative (h : Heap) (o : Ref) (k : Key) (g : Native) : Prop :=
  (((h.object o).ownDescriptor k).bind Descriptor.value).bind h.native? = some g

/-- The object has an accessor property whose getter is a builtin function. -/
def Heap.HoldsGetter (h : Heap) (o : Ref) (k : Key) (g : Native) : Prop :=
  ((((h.object o).ownDescriptor k).bind Descriptor.get).join.map Value.object).bind h.native? =
    some g

/-- The builtin prototypes are as they were made, in what concerns iteration. -/
@[mk_iff]
structure Machine.Pristine (m : Machine) (x : Extensions) : Prop where
  proxy : (m.heap.object x.iteratorPrototype).isProxy = false
  prototype : (m.heap.object x.iteratorPrototype).prototype = some Intrinsic.objectPrototype.ref
  next : m.heap.HoldsNative x.iteratorPrototype "next" .iterationNext
  self : m.heap.HoldsNative x.iteratorPrototype "iterator" .iterationSelf
  unhidden : (m.heap.object x.iteratorPrototype).ownDescriptor .iterator = none
  root : (m.heap.object Intrinsic.objectPrototype.ref).isProxy = false
  getter : m.heap.HoldsGetter Intrinsic.objectPrototype.ref .iterator .objectIterator

section Builtin

variable {h : Heap} {o : Ref} {k : Key} {g : Native}

instance : Decidable (h.HoldsNative o k g) := inferInstanceAs (Decidable (_ = _))

instance : Decidable (h.HoldsGetter o k g) := inferInstanceAs (Decidable (_ = _))

instance (m : Machine) (x : Extensions) : Decidable (m.Pristine x) :=
  decidable_of_iff' _ (m.pristine_iff x)

theorem Heap.HoldsNative.exists_function (hk : h.HoldsNative o k g) :
    ∃ d f data, (h.object o).ownDescriptor k = some d ∧ d.value = some (.object f) ∧
      h.kind f = .function data ∧ data.behaviour = .native g := by
  obtain ⟨v, hv, hnative⟩ := Option.bind_eq_some_iff.1 hk
  obtain ⟨d, hd, hv⟩ := Option.bind_eq_some_iff.1 hv
  obtain ⟨f, data, rfl, hkind, hbehaviour⟩ := native?_eq_some hnative
  exact ⟨d, f, data, hd, hv, hkind, hbehaviour⟩

theorem Heap.HoldsGetter.exists_function (hk : h.HoldsGetter o k g) :
    ∃ d f data, (h.object o).ownDescriptor k = some d ∧ d.value = none ∧ d.get.join = some f ∧
      h.kind f = .function data ∧ data.behaviour = .native g := by
  obtain ⟨v, hv, hnative⟩ := Option.bind_eq_some_iff.1 hk
  obtain ⟨f, hf, hv⟩ := Option.map_eq_some_iff.1 hv
  subst hv
  obtain ⟨f', data, hf', hkind, hbehaviour⟩ := native?_eq_some hnative
  cases hf'
  obtain ⟨d, hd, hget⟩ := Option.bind_eq_some_iff.1 (Option.join_eq_some_iff.1 hf)
  refine ⟨d, f, data, hd, ?_, by rw [hget]; rfl, hkind, hbehaviour⟩
  -- a property with a getter is no data property
  rcases Object.value_of_ownDescriptor hd with ⟨v, w, -, -, haccessor⟩ | ⟨hnone, -, -⟩
  · simp [Descriptor.isAccessor, hget] at haccessor
  · exact hnone

theorem Heap.live_of_ownDescriptor {d : Descriptor} (hd : (h.object o).ownDescriptor k = some d) :
    o.index < h.objects.size := by
  refine Nat.lt_of_not_le fun hout => ?_
  rw [Heap.object_of_size_le hout] at hd
  cases hd

theorem Heap.HoldsNative.live (hk : h.HoldsNative o k g) : o.index < h.objects.size := by
  obtain ⟨d, f, data, hd, -⟩ := hk.exists_function
  exact live_of_ownDescriptor hd

theorem Heap.HoldsGetter.live (hk : h.HoldsGetter o k g) : o.index < h.objects.size := by
  obtain ⟨d, f, data, hd, -⟩ := hk.exists_function
  exact live_of_ownDescriptor hd

theorem Machine.Grown.function {m m' : Machine} (hgrown : m.Grown m') {f : Ref}
    {data : FunctionData} (hf : m.heap.kind f = .function data) :
    m'.heap.kind f = .function data := by
  have hlive : f.index < m.size := Heap.live_of_kind (by simp [hf])
  exact (congrArg Object.kind (hgrown.object hlive)).trans hf

section Kept

variable {h' : Heap} (ho : h'.object o = h.object o)
  (hf : ∀ f data, h.kind f = .function data → h'.kind f = .function data)

include hf in
theorem Heap.native?_kept {v : Value} (hv : h.native? v = some g) : h'.native? v = some g := by
  obtain ⟨f, ⟨behaviour, name, source⟩, rfl, hkind, hbehaviour⟩ := native?_eq_some hv
  cases hbehaviour
  simp only [Heap.native?, hf f _ hkind]

include ho hf

/-- What a builtin object holds it holds as long as it stays and functions stay functions. -/
theorem Heap.HoldsNative.kept (hk : h.HoldsNative o k g) : h'.HoldsNative o k g := by
  obtain ⟨v, hv, hnative⟩ := Option.bind_eq_some_iff.1 hk
  rw [Heap.HoldsNative, ho]
  exact Option.bind_eq_some_iff.2 ⟨v, hv, Heap.native?_kept hf hnative⟩

theorem Heap.HoldsGetter.kept (hk : h.HoldsGetter o k g) : h'.HoldsGetter o k g := by
  obtain ⟨v, hv, hnative⟩ := Option.bind_eq_some_iff.1 hk
  rw [Heap.HoldsGetter, ho]
  exact Option.bind_eq_some_iff.2 ⟨v, hv, Heap.native?_kept hf hnative⟩

end Kept

/-- **The getter of the object prototype reads the iterator method by its name.** -/
theorem Machine.Pristine.getFor_root {m : Machine} {x : Extensions} (hx : m.Pristine x)
    (receiver : Value) (n : Nat) :
    (engine (n + 2)).getFor Intrinsic.objectPrototype.ref .iterator receiver m =
      (engine n).getV receiver "iterator" m := by
  obtain ⟨d, getter, data, hd, hvalue, hgetter, hkind, hbehaviour⟩ := hx.getter.exists_function
  rw [engine_getFor_accessor hx.root hd hvalue, hgetter]
  show (engine (n + 1)).call (.object getter) receiver [] m = _
  rw [engine_call_native hkind hbehaviour]
  rfl

end Builtin

/-! ## Iteration objects -/

/-- An iteration object: all that it has is its private next method. -/
def Object.iterating (x : Extensions) (next : Ref) (source : IterationSource) (cursor : Cursor) :
    Object :=
  { Object.new (some x.iteratorPrototype) (.iterator source cursor) with
    properties :=
      PropertyTable.empty.insert (.symbol x.nextSymbol) (.data (.object next) false false false) }

theorem Object.ownDescriptor_iterating (x : Extensions) (next : Ref) (source : IterationSource)
    (cursor : Cursor) (k : Key) :
    (Object.iterating x next source cursor).ownDescriptor k =
      if k = .symbol x.nextSymbol then
        some (Property.toDescriptor (.data (.object next) false false false))
      else none := by
  have hordinary : (Object.iterating x next source cursor).Ordinary := ⟨rfl, rfl⟩
  have hempty : PropertyTable.empty.find? k = none := rfl
  rw [hordinary.ownDescriptor]
  unfold iterating
  rw [Slots.find?_insert, hempty]
  split <;> rfl

/-- An iteration object behind its proxy, with its cursor. -/
structure Machine.Iterates (m : Machine) (x : Extensions) (p r : Ref) (source : IterationSource)
    (cursor : Cursor) : Prop where
  extensions : m.extensions = some x
  proxy : m.heap.kind p = .proxy r .enumeratesTarget
  object : ∃ next data, m.heap.object r = .iterating x next source cursor ∧
    m.heap.kind next = .function data ∧ data.behaviour = .advances r

namespace Machine.Iterates

variable {m m' : Machine} {x : Extensions} {p r h : Ref} {source : IterationSource}
  {cursor : Cursor} {k : Key} {receiver : Value}

theorem kind (hit : m.Iterates x p r source cursor) : m.heap.kind r = .iterator source cursor := by
  obtain ⟨next, data, hobject, -⟩ := hit.object
  unfold Heap.kind
  rw [hobject]
  rfl

theorem isProxy (hit : m.Iterates x p r source cursor) : (m.heap.object r).isProxy = false := by
  obtain ⟨next, data, hobject, -⟩ := hit.object
  rw [hobject]
  rfl

theorem prototype (hit : m.Iterates x p r source cursor) :
    (m.heap.object r).prototype = some x.iteratorPrototype := by
  obtain ⟨next, data, hobject, -⟩ := hit.object
  rw [hobject]
  rfl

/-- The iteration object has no property but its private next method. -/
theorem ownDescriptor_ne (hit : m.Iterates x p r source cursor) (hk : k ≠ .symbol x.nextSymbol) :
    (m.heap.object r).ownDescriptor k = none := by
  obtain ⟨next, data, hobject, -⟩ := hit.object
  rw [hobject, Object.ownDescriptor_iterating, if_neg hk]

/-- The iteration object is left alone, and the rest of the machine goes on. -/
theorem onward (hit : m.Iterates x p r source cursor) (h : m.Onward m')
    (hextensions : m'.extensions = some x) {cursor' : Cursor}
    (hobject : m'.heap.object r =
      { m.heap.object r with kind := .iterator source cursor' }) :
    m'.Iterates x p r source cursor' := by
  obtain ⟨next, data, hold, hnext, hbehaviour⟩ := hit.object
  have hlive {q : Ref} (hq : m.heap.kind q ≠ .ordinary) : q.index < m.size :=
    Heap.live_of_kind hq
  refine ⟨hextensions, ?_, next, data, by rw [hobject, hold]; rfl, ?_, hbehaviour⟩
  · have hproxy := h.kinds p (hlive (by simp [hit.proxy]))
    rw [hit.proxy] at hproxy
    exact hproxy.proxy
  · have hfunction := h.kinds next (hlive (by simp [hnext]))
    rw [hnext] at hfunction
    exact hfunction.function

/-! ### Reading through the proxy -/

section Handles

variable (hit : m.Iterates x p r source cursor) (hh : h = p ∨ h = r)

include hit hh

/-- The proxy answers reads as the iteration object does. -/
theorem getFor_handle {c : Nat} {res : EStateM.Result Halt Machine Value}
    (hres : ∀ n, (engine (n + c)).getFor r k receiver m = res) (n : Nat) :
    (engine (n + c + 1)).getFor h k receiver m = res := by
  rcases hh with rfl | rfl
  · rw [engine_getFor_forwarded hit.proxy]
    exact hres n
  · have hmore := hres (n + 1)
    rwa [Nat.add_right_comm] at hmore

theorem hasOwnProperty_handle (n : Nat) :
    (engine (n + 2)).hasOwnProperty h k m = .ok ((m.heap.object r).ownDescriptor k).isSome m := by
  rcases hh with rfl | rfl
  · have hnone : (engine (n + 2)).proxyHasOwn? h k m = .ok none m :=
      Run.kind_bind_of_proxy hit.proxy _ _
    have hown : (engine (n + 2)).getOwnProperty h k m =
        .ok ((m.heap.object r).ownDescriptor k) m := by
      rw [engine_getOwnProperty_forwarded hit.proxy, engine_getOwnProperty hit.isProxy]
    rw [Engine.hasOwnProperty, Run.bind_ok hnone]
    exact Run.bind_ok hown
  · exact engine_hasOwnProperty hit.isProxy

/-- **The private next method makes one step.** -/
theorem invoke_nextSymbol (n : Nat) :
    (engine (n + 3)).invoke (.object h) (.symbol x.nextSymbol) [] m =
      (Value.object <$> (engine (n + 2)).advance r) m := by
  obtain ⟨next, data, hobject, hnext, hbehaviour⟩ := hit.object
  have hown : (m.heap.object r).ownDescriptor (.symbol x.nextSymbol) =
      some (Property.toDescriptor (.data (.object next) false false false)) := by
    rw [hobject, Object.ownDescriptor_iterating, if_pos rfl]
  have hread (n : Nat) : (engine (n + 2)).getFor r (.symbol x.nextSymbol) (.object h) m =
      .ok (.object next) m := engine_getFor_data hit.isProxy hown rfl
  rw [Engine.invoke_apply (hit.getFor_handle hh hread n), engine_call hnext]
  simp only [Engine.runFunction, Run.bind_apply, Run.kind, hnext, hbehaviour]
  rfl

theorem iterationNext (n : Nat) :
    (engine (n + 3)).iterationNext (.object h) m =
      (Value.object <$> (engine (n + 2)).advance r) m := by
  obtain ⟨next, data, hobject, -, -⟩ := hit.object
  have hinstall := Engine.install_some hit.extensions
  have hown : (engine (n + 3)).hasOwnProperty h (.symbol x.nextSymbol) m = .ok true m := by
    rw [hit.hasOwnProperty_handle hh (n + 1), hobject, Object.ownDescriptor_iterating, if_pos rfl]
    rfl
  have his : (engine (n + 3)).isIterationObject (.object h) m = .ok true m := by
    rw [Engine.isIterationObject, Run.bind_ok hinstall]
    exact hown
  rw [Engine.iterationNext, Run.bind_ok his]
  simp only [if_true]
  rw [Run.bind_ok hinstall]
  exact hit.invoke_nextSymbol hh n

variable (hx : m.Pristine x)

include hx

/-- A method of the iterator prototype is found through the proxy. -/
theorem getFor_native {g : Native} (hk : k.isSymbol = false)
    (hg : m.heap.HoldsNative x.iteratorPrototype k g) :
    ∃ f data, m.heap.kind f = .function data ∧ data.behaviour = .native g ∧
      ∀ n, (engine (n + 4)).getFor h k (.object h) m = .ok (.object f) m := by
  obtain ⟨d, f, data, hd, hv, hkind, hbehaviour⟩ := hg.exists_function
  have hne : k ≠ .symbol x.nextSymbol := by
    rintro rfl
    cases hk
  refine ⟨f, data, hkind, hbehaviour, hit.getFor_handle hh fun n => ?_⟩
  rw [engine_getFor_inherited hit.isProxy (hit.ownDescriptor_ne hne) hit.prototype]
  exact engine_getFor_data hx.proxy hd hv

/-- **The next method makes one step**, called on the proxy or on the iteration object. -/
theorem iteratorNext (n : Nat) :
    (engine (n + 4)).iteratorNext h m = (engine (n + 2)).advance r m := by
  obtain ⟨f, data, hkind, hbehaviour, hread⟩ :=
    hit.getFor_native hh hx (by decide) hx.next
  have hinvoke : (engine (n + 4)).invoke (.object h) "next" [] m =
      (Value.object <$> (engine (n + 2)).advance r) m := by
    rw [Engine.invoke_apply (hread n), engine_call_native hkind hbehaviour]
    exact hit.iterationNext hh n
  have hresult : (Value.object <$> (engine (n + 2)).advance r) >>= Engine.iteratorObject =
      (engine (n + 2)).advance r := by
    rw [bind_map_left]
    exact bind_pure _
  show ((engine (n + 4)).invoke (.object h) "next" [] >>= Engine.iteratorObject) m = _
  rw [Run.bind_apply, hinvoke, ← Run.bind_apply, hresult]

/-- **The iterator method gives what it is called on.** -/
theorem getIterator (hsymbol : x.nextSymbol ≠ Symbol.iterator) (n : Nat) :
    (engine (n + 9)).getIterator (.object h) m = .ok h m := by
  obtain ⟨f, data, hkind, hbehaviour, hself⟩ :=
    hit.getFor_native hh hx (by decide) hx.self
  have hiterator : Key.iterator ≠ .symbol x.nextSymbol := by
    intro heq
    exact hsymbol (Key.symbol.inj heq).symm
  have hread (n : Nat) : (engine (n + 8)).getFor r .iterator (.object h) m =
      .ok (.object f) m := by
    rw [engine_getFor_inherited hit.isProxy (hit.ownDescriptor_ne hiterator) hit.prototype,
      engine_getFor_inherited hx.proxy hx.unhidden hx.prototype, hx.getFor_root]
    exact hself n
  refine Engine.getIterator_apply (hit.getFor_handle hh hread n) hkind ?_
  rw [engine_call_native hkind hbehaviour]
  rfl

end Handles

/-- **An enumeration of the proxy gives the iteration object.** -/
theorem enumerate (hit : m.Iterates x p r source cursor) (eng : Engine) :
    eng.enumerate p m = .ok r m := by
  have hsome : eng.proxyEnumerate? p m = .ok (some r) m := Run.kind_bind_of_proxy hit.proxy _ _
  rw [Engine.enumerate, Run.bind_ok hsome]
  rfl

end Machine.Iterates

/-! ## Making an iteration -/

/-- The enumerable own keys of an object, except for symbols. -/
def Object.enumerableNames (o : Object) : List Key :=
  (o.ownKeys.filter fun k => !k.isSymbol).filter fun k =>
    (o.ownDescriptor k).any Descriptor.isEnumerable

/-- What an iteration over an object lists: the positions of an array, the enumerable own keys of
anything else. -/
def Heap.listing (h : Heap) (o : Ref) (keysOnly : Bool) : Listing where
  object := o
  keys :=
    match h.kind o with
    | .array length _ => positionsBelow length
    | _ => namedKeys (h.object o).enumerableNames
  keysOnly := keysOnly

section Making

variable {m : Machine} {o : Ref}

theorem Heap.listing_array {length : Nat} {writable : Bool}
    (hkind : m.heap.kind o = .array length writable) (keysOnly : Bool) :
    m.heap.listing o keysOnly = ⟨o, positionsBelow length, keysOnly⟩ := by
  simp only [Heap.listing, hkind]

theorem Heap.listing_ordinary (ho : (m.heap.object o).Ordinary) (keysOnly : Bool) :
    m.heap.listing o keysOnly =
      ⟨o, namedKeys (m.heap.object o).enumerableNames, keysOnly⟩ := by
  unfold Heap.listing
  cases hkind : m.heap.kind o with
  | array length writable => exact absurd hkind (ho.kind_ne_array _ _)
  | _ => rfl

/-- The length of an array is read as it is. -/
theorem engine_lengthOfArrayLike {length : Nat} {writable : Bool}
    (hkind : m.heap.kind o = .array length writable) (hlength : length ≤ Number.maxWord) (n : Nat) :
    (engine (n + 2)).lengthOfArrayLike o m = .ok length m := by
  have hkind' : (m.heap.object o).kind = .array length writable := hkind
  have hproxy : (m.heap.object o).isProxy = false := by simp [Object.isProxy, hkind']
  have hown : (m.heap.object o).ownDescriptor .length =
      some (Object.lengthDescriptor length writable) := by
    simp only [Object.ownDescriptor, hkind', if_true]
  have hget : (engine (n + 2)).get o .length m = .ok (.ofNat length) m :=
    engine_getFor_data hproxy hown rfl
  have hlimit : length ≤ Engine.lengthLimit :=
    Nat.le_trans hlength (by decide)
  rw [Engine.lengthOfArrayLike, Run.bind_ok hget, Engine.toLength_ofNat _ hlimit]

/-- An iteration over an array walks over its positions. -/
theorem iterationSource_array {length : Nat} {writable : Bool}
    (hkind : m.heap.kind o = .array length writable) (hlength : length ≤ Number.maxWord)
    (keysOnly : Bool) (n : Nat) :
    (engine (n + 2)).iterationSource (.object o) keysOnly m =
      .ok (if keysOnly then .arrayKeys length else .arrayEntries o length) m := by
  have hheap : Run.heap m = .ok m.heap m := rfl
  have hobject : Engine.toObject (.object o) m = .ok o m := rfl
  have hkind' : (m.heap.object o).kind = .array length writable := hkind
  have hproxy : (m.heap.object o).isProxy = false := by simp [Object.isProxy, hkind']
  have his : m.heap.isArray (.object o) = true := by
    simp only [Heap.isArray, Heap.root_eq_self hproxy, hkind]
  rw [Engine.iterationSource, Run.bind_ok hheap, his]
  simp only [if_true]
  rw [Run.bind_ok hobject, Run.bind_ok (engine_lengthOfArrayLike hkind hlength n),
    Nat.min_eq_left hlength]
  rfl

/-- **What an iteration walks over.** -/
theorem iterationSource_apply (hproxy : (m.heap.object o).isProxy = false)
    (hlength : ∀ length writable, m.heap.kind o = .array length writable →
      length ≤ Number.maxWord) (keysOnly : Bool) (n : Nat) :
    ∃ source, (engine (n + 2)).iterationSource (.object o) keysOnly m = .ok source m ∧
      m.heap.Lists (m.heap.listing o keysOnly) source := by
  have hheap : Run.heap m = .ok m.heap m := rfl
  have hobject : Engine.toObject (.object o) m = .ok o m := rfl
  have his : m.heap.isArray (.object o) = (m.heap.object o).isArray := by
    simp only [Heap.isArray, Heap.root_eq_self hproxy]
    rfl
  by_cases harray : (m.heap.object o).isArray = true
  · obtain ⟨length, writable, hkind⟩ := Object.exists_of_isArray harray
    have hkind : m.heap.kind o = .array length writable := hkind
    have hle := hlength length writable hkind
    rw [Heap.listing_array hkind, iterationSource_array hkind hle]
    cases keysOnly with
    | true => exact ⟨_, rfl, .positions length harray⟩
    | false => exact ⟨_, rfl, .elements length hle harray⟩
  · have ho : (m.heap.object o).Ordinary := ⟨hproxy, Bool.eq_false_iff.2 harray⟩
    have hkeys : (engine (n + 2)).enumerableOwnKeys o m =
        .ok (m.heap.object o).enumerableNames m := by
      rw [← hostedEngine_none, Engine.enumerableOwnKeys, Run.bind_ok (hosted_ownKeys hproxy)]
      exact keepEnumerable_apply hproxy _
    rw [Heap.listing_ordinary ho, Engine.iterationSource, Run.bind_ok hheap, his, ho.2]
    simp only [Bool.false_eq_true, if_false]
    rw [Run.bind_ok hobject, Run.bind_ok hkeys]
    cases keysOnly with
    | true => exact ⟨_, rfl, .names _ ho⟩
    | false => exact ⟨_, rfl, .entries _ ho⟩

/-- An iteration object and its next method are made at the end of the heap. -/
theorem newIterationObject_apply (x : Extensions) (source : IterationSource) (m : Machine) :
    ∃ m', Engine.newIterationObject x.iteratorPrototype x.nextSymbol source m =
        .ok ⟨m.size⟩ m' ∧ m.Grown m' ∧ m'.size = m.size + 2 ∧
      m'.heap.object ⟨m.size⟩ = .iterating x ⟨m.size + 1⟩ source .fresh ∧
      m'.heap.kind ⟨m.size + 1⟩ = .function ⟨.advances ⟨m.size⟩, "next", none⟩ := by
  let object : Object := .new (some x.iteratorPrototype) (.iterator source .fresh)
  let function : Object :=
    { Object.new (some Intrinsic.functionPrototype.ref)
        (.function ⟨.advances ⟨m.size⟩, "next", none⟩) with
      properties :=
        (PropertyTable.empty.insert .length (.data (.ofNat 0) false false true)).insert
          "name" (.data (.text "next") false false true) }
  let linked (o : Object) : Object :=
    { o with
      properties :=
        o.properties.insert (.symbol x.nextSymbol)
          (.data (.object ⟨(m.heap.allocate object).2.objects.size⟩) false false false) }
  let m₁ := m.withHeap (m.heap.allocate object).2
  let m₂ := m₁.withHeap (m₁.heap.allocate function).2
  have hsize₁ : m₁.size = m.size + 1 := Heap.size_allocate ..
  have hsize₂ : m₂.size = m.size + 2 := (Heap.size_allocate ..).trans (congrArg (· + 1) hsize₁)
  have hfirst : m₂.heap.object ⟨m.size⟩ = object := by
    have hlive : m.size < m₁.size := by omega
    exact ((Machine.Grown.allocate m₁ function).object (r := ⟨m.size⟩) hlive).trans
      (m.heap.object_allocate_self object)
  have hsecond : m₂.heap.object ⟨m₁.size⟩ = function := m₁.heap.object_allocate_self function
  have hgrown : m.Grown m₂ := (Machine.Grown.allocate m object).trans (.allocate m₁ function)
  refine ⟨m₂.withHeap (m₂.heap.modify ⟨m.size⟩ linked), rfl,
    hgrown.modify_fresh (Nat.le_refl _) linked, (Heap.size_modify ..).trans hsize₂, ?_, ?_⟩
  · have hlive : m.size < m₂.heap.objects.size := show m.size < m₂.size by omega
    rw [Machine.heap_withHeap, Heap.object_modify, if_pos ⟨rfl, hlive⟩, hfirst, ← hsize₁]
    rfl
  · have hne : (⟨m₁.size⟩ : Ref) ≠ ⟨m.size⟩ := by
      intro hsame
      have hindex : m₁.size = m.size := congrArg Ref.index hsame
      omega
    rw [← hsize₁]
    show ((m₂.heap.modify ⟨m.size⟩ linked).object ⟨m₁.size⟩).kind = _
    rw [Heap.object_modify, if_neg fun hsame => hne hsame.1, hsecond]
    rfl

/-- Where there are extensions, a new iteration object and its proxy are all that is new. -/
theorem newEnumerable_grown {x : Extensions} (hx : m.extensions = some x)
    (source : IterationSource) :
    ∃ m', Engine.newEnumerable source m = .ok ⟨m.size + 2⟩ m' ∧ m.Grown m' ∧
      m'.Iterates x ⟨m.size + 2⟩ ⟨m.size⟩ source .fresh := by
  obtain ⟨m₁, hobject, hgrown₁, hsize₁, hnew, hnext⟩ := newIterationObject_apply x source m
  let proxy : Object := .new none (.proxy ⟨m.size⟩ .enumeratesTarget)
  let m₂ := m₁.withHeap (m₁.heap.allocate proxy).2
  have hgrown₂ : m₁.Grown m₂ := .allocate m₁ proxy
  have hgrown := hgrown₁.trans hgrown₂
  rw [← hsize₁]
  refine ⟨m₂, ?_, hgrown, hgrown.extensions.trans hx, ?_,
    ⟨m.size + 1⟩, ⟨.advances ⟨m.size⟩, "next", none⟩, ?_, ?_, rfl⟩
  · rw [Engine.newEnumerable, Run.bind_ok (Engine.install_some hx), Run.bind_ok hobject]
    rfl
  · exact congrArg Object.kind (m₁.heap.object_allocate_self proxy)
  · have hlive : m.size < m₁.size := by omega
    exact (hgrown₂.object (r := ⟨m.size⟩) hlive).trans hnew
  · refine (congrArg Object.kind (hgrown₂.object ?_)).trans hnext
    show m.size + 1 < m₁.size
    omega

/-- A new iteration object and its proxy. -/
theorem newEnumerable_apply (source : IterationSource) (m : Machine) :
    ∃ x p r m', Engine.newEnumerable source m = .ok p m' ∧ m'.Iterates x p r source .fresh ∧
      m.size ≤ r.index := by
  obtain ⟨x, m₁, hinstall, hextensions, hsize⟩ : ∃ x m₁, Engine.install m = .ok x m₁ ∧
      m₁.extensions = some x ∧ m.size ≤ m₁.size := by
    obtain ⟨x, m₁, hrun, hframed⟩ := Run.Frames.install m
    refine ⟨x, m₁, hrun, ?_, hframed.grows⟩
    cases hsome : m.extensions with
    | some y =>
      cases hrun.symm.trans (Engine.install_some hsome)
      exact hsome
    | none =>
      obtain ⟨y, m₂, hrun', hextensions, -⟩ := Engine.install_none hsome
      cases hrun.symm.trans hrun'
      exact hextensions
  obtain ⟨m₂, hnew, -, hit⟩ := newEnumerable_grown hextensions source
  refine ⟨x, _, _, m₂, ?_, hit, hsize⟩
  -- once they are there, the extensions are not installed again
  rw [Engine.newEnumerable, Run.bind_ok (Engine.install_some hextensions)] at hnew
  rw [Engine.newEnumerable, Run.bind_ok hinstall, hnew]

end Making

end ObjectModel
