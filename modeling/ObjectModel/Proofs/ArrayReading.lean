import ObjectModel.Proofs.Definition
import ObjectModel.Proofs.Enumeration

/-!
# Reading an array back

A new array of some values is written by defining its elements one after the other, each of which
moves the length on.  It is read in four ways: as a list, by its length and its elements; by the
iterator that its iterator method gives; and by the iterations over its positions and over its
entries.  Each of them gives back the values.

The three iterators walk over one aspect of the array each (`Aspect`).  A step of any of them gives
what stands for the element at its position and changes no object but the iteration object
(`Machine.ReadsArray.step`), so the protocol gives what stands for all elements
(`Machine.ReadsArray.iteratorValues`).
-/

namespace ObjectModel

/-! ## What an iteration over an array gives -/

/-- What an iteration over an array walks over. -/
inductive Aspect where
  | elements
  | positions
  | entries

namespace Aspect

def source (a : Ref) (length : Nat) : Aspect → IterationSource
  | elements => .arrayValues a
  | positions => .arrayKeys length
  | entries => .arrayEntries a length

/-- What the iteration finds at a position before the end. -/
def element (a : Ref) (i : Nat) : Aspect → Element
  | elements => .live a
  | positions => .value (.ofNat i)
  | entries => .arrayEntry a

/-- The value stands for an element: it is the element, its position, or a pair of both that was
made when there were `size` objects. -/
def Gives (size : Nat) (h : Heap) (i : Nat) (v : Value) : Aspect → Value → Prop
  | elements, w => w = v
  | positions, w => w = .ofNat i
  | entries, w => ∃ pair : Ref, w = .object pair ∧ size ≤ pair.index ∧
      pair.index < h.objects.size ∧ h.object pair = .listing [.ofNat i, v]

/-- The values stand for the elements from a position on.  No pair is given twice. -/
def GivesAll (size : Nat) (h : Heap) (i : Nat) (vs : List Value) : Aspect → List Value → Prop
  | elements, ws => ws = vs
  | positions, ws => ws = (List.range' i vs.length).map .ofNat
  | entries, ws => ∃ pairs : List Ref, ws = pairs.map .object ∧ pairs.Nodup ∧
      (∀ pair ∈ pairs, size ≤ pair.index) ∧
      pairs.map h.object = (vs.zipIdx i).map fun e => .listing [.ofNat e.2, e.1]

variable {aspect : Aspect} {size i : Nat} {h h' : Heap} {v w : Value} {vs ws : List Value}

theorem givesAll_nil (size : Nat) (h : Heap) (i : Nat) (aspect : Aspect) :
    aspect.GivesAll size h i [] [] := by
  cases aspect with
  | entries => exact ⟨[], rfl, List.nodup_nil, fun _ hpair => (by cases hpair), rfl⟩
  | _ => rfl

/-- What stands for the elements stands for the first and for the rest. -/
theorem Gives.cons (hw : aspect.Gives size h i v w) (hsize : size ≤ h.objects.size)
    (hws : aspect.GivesAll h.objects.size h' (i + 1) vs ws)
    (hkept : ∀ pair : Ref, size ≤ pair.index → pair.index < h.objects.size →
      h'.object pair = h.object pair) :
    aspect.GivesAll size h' i (v :: vs) (w :: ws) := by
  cases aspect with
  | elements => exact congrArg₂ List.cons hw hws
  | positions => exact congrArg₂ List.cons hw hws
  | entries =>
    obtain ⟨pair, rfl, hle, hlt, hobject⟩ := hw
    obtain ⟨pairs, rfl, hnodup, hfresh, hobjects⟩ := hws
    refine ⟨pair :: pairs, rfl, List.nodup_cons.2 ⟨fun hmem => ?_, hnodup⟩, ?_, ?_⟩
    · exact absurd (hfresh pair hmem) (Nat.not_le.2 hlt)
    · rintro q (_ | ⟨_, hq⟩)
      · exact hle
      · exact Nat.le_trans hsize (hfresh q hq)
    · exact congrArg₂ List.cons ((hkept pair hle hlt).trans hobject) hobjects

theorem Gives.grown {m m' : Machine} (hw : aspect.Gives size m.heap i v w) (hgrown : m.Grown m') :
    aspect.Gives size m'.heap i v w := by
  cases aspect with
  | entries =>
    obtain ⟨pair, rfl, hle, hlt, hobject⟩ := hw
    exact ⟨pair, rfl, hle, Nat.lt_of_lt_of_le hlt hgrown.size_le, (hgrown.object hlt).trans hobject⟩
  | _ => exact hw

end Aspect

/-! ## One step over an array -/

section Step

variable {m : Machine} {a r : Ref} {xs : List Value} {v : Value} {i n : Nat} {aspect : Aspect}
  {cursor : Cursor}

/-- The elements of an array have positions, and these are no names. -/
theorem ownDescriptor_listing_eq_none {k : Key} (hlength : k ≠ .length) (hk : ∀ i, k ≠ .index i) :
    (Object.listing xs).ownDescriptor k = none := by
  have hnone : (Engine.plainTable (listed xs)).find? k = none := by
    cases hfound : (Engine.plainTable (listed xs)).find? k with
    | none => rfl
    | some p =>
      obtain ⟨w, hmem, -⟩ := find?_plainTable hfound
      obtain ⟨e, -, he⟩ := List.mem_map.1 hmem
      exact absurd (congrArg Prod.fst he).symm (hk e.2)
  simp only [Object.listing, Object.new, Object.ownDescriptor, if_neg hlength, hnone]
  rfl

variable (ha : m.heap.object a = .listing xs)

include ha

theorem kind_listing : m.heap.kind a = .array xs.length true := congrArg Object.kind ha

theorem isProxy_listing : (m.heap.object a).isProxy = false := by
  rw [ha]
  rfl

variable (hlimit : xs.length < indexLimit)

include hlimit

theorem engine_get_element (hv : xs[i]? = some v) :
    (engine (n + 2)).get a (.ofPosition i) m = .ok v m := by
  have hi : i < xs.length := (List.getElem?_eq_some_iff.1 hv).1
  have hposition : Key.ofPosition i = .index i :=
    Key.ofPosition_of_le (Nat.le_of_lt (Nat.lt_trans hi hlimit))
  have hown : (m.heap.object a).ownDescriptor (.index i) = some (.plain v) := by
    rw [ha]
    exact ownDescriptor_listing hv
  rw [hposition]
  exact engine_getFor_data (isProxy_listing ha) hown rfl

namespace Engine

/-- What was found is delivered as what stands for the element. -/
theorem deliver_element (hv : xs[i]? = some v) (aspect : Aspect) :
    ∃ w m', (engine (n + 2)).deliver i (aspect.element a i) m = .ok (some w) m' ∧ m.Grown m' ∧
      aspect.Gives m.size m'.heap i v w := by
  have hget : (engine (n + 2)).get a (.ofPosition i) m = .ok v m := engine_get_element ha hlimit hv
  cases aspect with
  | elements => exact ⟨v, m, Run.bind_ok hget, .refl m, rfl⟩
  | positions => exact ⟨.ofNat i, m, rfl, .refl m, rfl⟩
  | entries =>
    refine ⟨.object ⟨m.size⟩, m.withHeap (m.heap.allocate (.listing [.ofNat i, v])).2,
      (Run.bind_ok hget).trans (Run.bind_ok (newPair_apply _ _ m)), .allocate m _, ⟨m.size⟩, rfl,
      Nat.le_refl _, ?_,
      m.heap.object_allocate_self _⟩
    rw [Machine.heap_withHeap, Heap.size_allocate]
    exact Nat.lt_succ_self _

variable (hkind : m.heap.kind r = .iterator (aspect.source a xs.length) cursor)

omit ha hlimit in
include hkind in
/-- No position of an array is skipped. -/
theorem handOut_array (eng : Engine) : eng.handOut r m = eng.handOutWithin r 1 m := by
  rw [handOut_apply hkind]
  cases aspect <;> rfl

variable (hi : cursor.position? = some i)

include hkind hi

/-- A position before the end is taken as it is, and at the end there is none. -/
theorem take_array :
    (engine (n + 2)).take r m =
      if i < xs.length then .ok (some (i, aspect.element a i)) (m.moved r (.active (i + 1)))
      else .ok none (m.moved r .exhausted) := by
  have hlength : (engine (n + 2)).lengthOfArrayLike a m = .ok xs.length m :=
    engine_lengthOfArrayLike (kind_listing ha) (Nat.le_of_lt hlimit) n
  cases aspect with
  | elements =>
    rw [take, Run.bind_apply, look_live _ hkind hi, hlength]
    by_cases hlt : i < xs.length
    · simp only [if_neg (Nat.not_le.2 hlt), if_pos hlt]
      rfl
    · simp only [if_pos (Nat.not_lt.1 hlt), if_neg hlt]
      rfl
  | positions =>
    rw [take_apply _ hkind (fun _ heq => by cases heq) hi]
    simp only [Aspect.source, Heap.elementAt]
    split <;> rfl
  | entries =>
    rw [take_apply _ hkind (fun _ heq => by cases heq) hi]
    simp only [Aspect.source, Heap.elementAt]
    split <;> rfl

/-- **A step before the end reports what stands for the element.** -/
theorem advance_element (hv : xs[i]? = some v) :
    ∃ result w m', (engine (n + 2)).advance r m = .ok result m' ∧
      (m.moved r (.active (i + 1))).Grown m' ∧ m'.heap.object result = .reporting w false ∧
      aspect.Gives m.size m'.heap i v w := by
  have htake := take_array (n := n) ha hlimit hkind hi
  rw [if_pos (List.getElem?_eq_some_iff.1 hv).1] at htake
  have hne : a ≠ r := by
    rintro rfl
    cases (kind_listing ha).symm.trans hkind
  obtain ⟨w, m₁, hdeliver, hgrown₁, hgives⟩ :=
    deliver_element (n := n) ((m.object_moved hne _).trans ha) hlimit hv aspect
  obtain ⟨m', hresult, hgrown, hobject⟩ := resultFor_apply (some (i, w)) m₁
  rw [m.size_moved] at hgives
  refine ⟨_, w, m', ?_, hgrown₁.trans hgrown, hobject, hgives.grown hgrown⟩
  have hout : (engine (n + 2)).handOut r m = .ok (some (i, w)) m₁ := by
    rw [handOut_array hkind, handOutWithin, Run.bind_ok htake]
    exact Run.bind_ok hdeliver
  rw [advance_eq, Run.bind_ok hout, hresult]

/-- **A step at the end reports the end.** -/
theorem advance_end (hend : xs.length ≤ i) :
    ∃ result m', (engine (n + 2)).advance r m = .ok result m' ∧
      (m.moved r .exhausted).Grown m' ∧ m'.heap.object result = .reporting .undefined true := by
  have htake := take_array (n := n) ha hlimit hkind hi
  rw [if_neg (Nat.not_lt.2 hend)] at htake
  obtain ⟨m', hresult, hgrown, hobject⟩ := resultFor_apply none (m.moved r .exhausted)
  refine ⟨_, m', ?_, hgrown, hobject⟩
  have hout : (engine (n + 2)).handOut r m = .ok none (m.moved r .exhausted) := by
    rw [handOut_array hkind, handOutWithin]
    exact Run.bind_ok htake
  rw [advance_eq, Run.bind_ok hout, hresult]

end Engine

end Step

/-! ## The builtin prototypes stay -/

namespace Machine.Pristine

variable {m m' : Machine} {x : Extensions} {p r : Ref} {source : IterationSource} {cursor : Cursor}

theorem live (hx : m.Pristine x) :
    x.iteratorPrototype.index < m.size ∧ Intrinsic.objectPrototype.ref.index < m.size :=
  ⟨hx.next.live, hx.getter.live⟩

/-- The prototypes are no iteration objects: these have no property by a name, and none with a
getter. -/
theorem ne (hx : m.Pristine x) (hit : m.Iterates x p r source cursor) :
    x.iteratorPrototype ≠ r ∧ Intrinsic.objectPrototype.ref ≠ r := by
  obtain ⟨next, data, hobject, -⟩ := hit.object
  constructor
  · rintro rfl
    obtain ⟨d, f, data, hd, -⟩ := hx.next.exists_function
    rw [hit.ownDescriptor_ne (fun heq => by cases heq)] at hd
    cases hd
  · rintro heq
    obtain ⟨d, f, data, hd, hvalue, -⟩ := hx.getter.exists_function
    rw [heq, hobject, Object.ownDescriptor_iterating] at hd
    split at hd
    · cases hd
      cases hvalue
    · cases hd

protected theorem congr (hx : m.Pristine x)
    (hiterator : m'.heap.object x.iteratorPrototype = m.heap.object x.iteratorPrototype)
    (hroot : m'.heap.object Intrinsic.objectPrototype.ref =
      m.heap.object Intrinsic.objectPrototype.ref)
    (hf : ∀ f data, m.heap.kind f = .function data → m'.heap.kind f = .function data) :
    m'.Pristine x where
  proxy := hiterator ▸ hx.proxy
  prototype := hiterator ▸ hx.prototype
  next := hx.next.kept hiterator hf
  self := hx.self.kept hiterator hf
  unhidden := hiterator ▸ hx.unhidden
  root := hroot ▸ hx.root
  getter := hx.getter.kept hroot hf

end Machine.Pristine

namespace Machine

variable {m m' : Machine} {x : Extensions} {p r : Ref} {source : IterationSource}
  {cursor cursor' : Cursor}

theorem Grown.pristine (h : m.Grown m') (hx : m.Pristine x) : m'.Pristine x :=
  hx.congr (h.object hx.live.1) (h.object hx.live.2) fun _ _ hf => h.function hf

theorem moved_function (hkind : m.heap.kind r = .iterator source cursor) {f : Ref}
    {data : FunctionData} (hf : m.heap.kind f = .function data) :
    (m.moved r cursor').heap.kind f = .function data := by
  have hne : f ≠ r := by
    rintro rfl
    cases hkind.symm.trans hf
  exact (congrArg Object.kind (m.object_moved hne cursor')).trans hf

theorem Iterates.moved (hit : m.Iterates x p r source cursor) (cursor' : Cursor) :
    (m.moved r cursor').Iterates x p r source cursor' := by
  obtain ⟨next, data, hobject, hnext, hbehaviour⟩ := hit.object
  have hne : p ≠ r := by
    rintro rfl
    cases hit.kind.symm.trans hit.proxy
  refine ⟨hit.extensions, (congrArg Object.kind (m.object_moved hne cursor')).trans hit.proxy,
    next, data, ?_, moved_function hit.kind hnext, hbehaviour⟩
  rw [object_moved_self hit.kind, hobject]
  rfl

theorem Iterates.pristine_moved (hit : m.Iterates x p r source cursor) (hx : m.Pristine x)
    (cursor' : Cursor) : (m.moved r cursor').Pristine x :=
  hx.congr (m.object_moved (hx.ne hit).1 cursor') (m.object_moved (hx.ne hit).2 cursor')
    fun _ _ hf => moved_function hit.kind hf

theorem Iterates.grown (hit : m.Iterates x p r source cursor) (h : m.Grown m') :
    m'.Iterates x p r source cursor := by
  obtain ⟨next, data, hobject, hnext, hbehaviour⟩ := hit.object
  have hp : p.index < m.size := Heap.live_of_kind (by simp [hit.proxy])
  exact ⟨h.extensions.trans hit.extensions, (congrArg Object.kind (h.object hp)).trans hit.proxy,
    next, data, (h.object (Engine.live_of_iterator hit.kind)).trans hobject, h.function hnext,
    hbehaviour⟩

end Machine

/-! ## A run over an array -/

/-- An iteration over an array of the given values, with the position that it has come to. -/
structure Machine.ReadsArray (m : Machine) (x : Extensions) (aspect : Aspect) (a p r : Ref)
    (xs : List Value) (i : Nat) : Prop where
  iterates : ∃ cursor, cursor.position? = some i ∧
    m.Iterates x p r (aspect.source a xs.length) cursor
  pristine : m.Pristine x
  array : m.heap.object a = .listing xs

namespace Machine.ReadsArray

variable {m : Machine} {x : Extensions} {aspect : Aspect} {a p r : Ref} {xs vs : List Value}
  {v : Value} {i n fuel : Nat}

theorem live (h : m.ReadsArray x aspect a p r xs i) : r.index < m.size := by
  obtain ⟨cursor, -, hit⟩ := h.iterates
  exact Engine.live_of_iterator hit.kind

variable (h : m.ReadsArray x aspect a p r xs i) (hlimit : xs.length < indexLimit)

include h hlimit

/-- **The protocol makes one step**, and of what there was only the iteration object has changed. -/
theorem step (hv : xs[i]? = some v) :
    ∃ w m', (engine (n + 4)).iteratorStepValue p m = .ok (some w) m' ∧
      m'.ReadsArray x aspect a p r xs (i + 1) ∧ aspect.Gives m.size m'.heap i v w ∧
      m.size ≤ m'.size ∧ ∀ q, q ≠ r → q.index < m.size → m'.heap.object q = m.heap.object q := by
  obtain ⟨⟨cursor, hi, hit⟩, hx, ha⟩ := h
  obtain ⟨result, w, m', hadvance, hgrown, hresult, hgives⟩ :=
    Engine.advance_element (n := n) ha hlimit hit.kind hi hv
  have hnext := (hit.iteratorNext (.inl rfl) hx n).trans hadvance
  have hstepped := (m.stepped_moved hit.kind (.active (i + 1))).grown hgrown
  have hne : a ≠ r := by
    rintro rfl
    cases (kind_listing ha).symm.trans hit.kind
  have hlive : a.index < m.size := Heap.live_of_kind (by simp [kind_listing ha])
  refine ⟨w, m', engine_stepValue hnext hresult, ?_, hgives, hstepped.grows, hstepped.others⟩
  exact ⟨⟨.active (i + 1), rfl, (hit.moved _).grown hgrown⟩,
    hgrown.pristine (hit.pristine_moved hx _), (hstepped.others a hne hlive).trans ha⟩

theorem stop (hend : xs.length ≤ i) :
    ∃ m', (engine (n + 4)).iteratorStepValue p m = .ok none m' ∧ m.size ≤ m'.size ∧
      ∀ q, q ≠ r → q.index < m.size → m'.heap.object q = m.heap.object q := by
  obtain ⟨⟨cursor, hi, hit⟩, hx, ha⟩ := h
  obtain ⟨result, m', hadvance, hgrown, hresult⟩ :=
    Engine.advance_end (n := n) ha hlimit hit.kind hi hend
  have hnext := (hit.iteratorNext (.inl rfl) hx n).trans hadvance
  have hstepped := (m.stepped_moved hit.kind .exhausted).grown hgrown
  exact ⟨m', engine_stepValue hnext hresult, hstepped.grows, hstepped.others⟩

/-- **The protocol gives what stands for the elements ahead.** -/
theorem iteratorValues (hvs : xs.drop i = vs) (hfuel : vs.length < fuel) :
    ∃ ws m', (engine (n + 4)).iteratorValues p fuel m = .ok ws m' ∧
      aspect.GivesAll m.size m'.heap i vs ws ∧
      m.size ≤ m'.size ∧ ∀ q, q ≠ r → q.index < m.size → m'.heap.object q = m.heap.object q := by
  obtain ⟨fuel, rfl⟩ : ∃ fuel', fuel = fuel' + 1 := ⟨fuel - 1, by omega⟩
  induction vs generalizing m i fuel with
  | nil =>
    obtain ⟨m', hstep, hsize, hothers⟩ := h.stop (n := n) hlimit (List.drop_eq_nil_iff.1 hvs)
    exact ⟨[], m', Run.bind_ok hstep, Aspect.givesAll_nil .., hsize, hothers⟩
  | cons v rest ih =>
    have hv : xs[i]? = some v := by
      rw [← List.head?_drop, hvs, List.head?_cons]
    have hrest : xs.drop (i + 1) = rest := by
      rw [← List.tail_drop, hvs, List.tail_cons]
    obtain ⟨fuel, rfl⟩ : ∃ fuel', fuel = fuel' + 1 :=
      ⟨fuel - 1, by rw [List.length_cons] at hfuel; omega⟩
    obtain ⟨w, m₁, hstep, h₁, hgives, hsize₁, hothers₁⟩ := h.step (n := n) hlimit hv
    obtain ⟨ws, m', hrun, hall, hsize, hothers⟩ := ih h₁ hrest fuel (Nat.lt_of_succ_lt_succ hfuel)
    refine ⟨w :: ws, m', ?_, hgives.cons hsize₁ hall fun q hq hlive => ?_,
      Nat.le_trans hsize₁ hsize, fun q hq hlive => ?_⟩
    · rw [Engine.iteratorValues, Run.bind_ok hstep]
      exact Run.bind_ok hrun
    · -- a pair is not the iteration object, which was there before it
      have hne : q ≠ r := by
        rintro rfl
        exact absurd h.live (Nat.not_lt.2 hq)
      exact hothers q hne hlive
    · rw [hothers q hq (Nat.lt_of_lt_of_le hlive hsize₁), hothers₁ q hq hlive]

end Machine.ReadsArray

/-! ## Making the iterators -/

/-- The prototype of arrays is as it was made, in what concerns iteration. -/
@[mk_iff]
structure Machine.ArraysPristine (m : Machine) : Prop where
  proxy : (m.heap.object Intrinsic.arrayPrototype.ref).isProxy = false
  prototype : (m.heap.object Intrinsic.arrayPrototype.ref).prototype =
    some Intrinsic.objectPrototype.ref
  method : m.heap.HoldsNative Intrinsic.arrayPrototype.ref "iterator" .arrayIterator
  unhidden : (m.heap.object Intrinsic.arrayPrototype.ref).ownDescriptor .iterator = none

instance (m : Machine) : Decidable m.ArraysPristine := decidable_of_iff' _ m.arraysPristine_iff

section Making

variable {m : Machine} {x : Extensions} {a : Ref} {xs : List Value}
  (ha : m.heap.object a = .listing xs)

include ha

/-- **The iterator method of an array is found by way of its name**: the getter of the object
prototype reads it, and the array prototype has it. -/
theorem getIterator_array (hextensions : m.extensions = some x) (hx : m.Pristine x)
    (harrays : m.ArraysPristine) (n : Nat) :
    ∃ m', (engine (n + 8)).getIterator (.object a) m = .ok ⟨m.size + 2⟩ m' ∧ m.Grown m' ∧
      m'.Iterates x ⟨m.size + 2⟩ ⟨m.size⟩ (.arrayValues a) .fresh := by
  have hproxy := isProxy_listing ha
  have hprototype : (m.heap.object a).prototype = some Intrinsic.arrayPrototype.ref := by
    rw [ha]
    rfl
  have hown {k : Key} (hlength : k ≠ .length) (hk : ∀ i, k ≠ .index i) :
      (m.heap.object a).ownDescriptor k = none := by
    rw [ha]
    exact ownDescriptor_listing_eq_none hlength hk
  obtain ⟨d, f, data, hd, hv, hkind, hbehaviour⟩ := harrays.method.exists_function
  have hmethod : (engine (n + 4)).getFor a "iterator" (.object a) m = .ok (.object f) m := by
    rw [engine_getFor_inherited hproxy (hown (by decide) fun _ heq => by cases heq) hprototype]
    exact engine_getFor_data harrays.proxy hd hv
  have hget : (engine (n + 8)).getFor a .iterator (.object a) m = .ok (.object f) m := by
    rw [engine_getFor_inherited hproxy (hown (by decide) fun _ heq => by cases heq) hprototype,
      engine_getFor_inherited harrays.proxy harrays.unhidden harrays.prototype, hx.getFor_root]
    exact hmethod
  obtain ⟨m', hnew, hgrown, hit⟩ := newEnumerable_grown hextensions (.arrayValues a)
  refine ⟨m', Engine.getIterator_apply hget hkind ?_, hgrown, hit⟩
  rw [engine_call_native hkind hbehaviour]
  exact Run.bind_ok hnew

/-- What the iterator constructor makes of an array. -/
theorem call_iteratorConstructor (hextensions : m.extensions = some x)
    (hlimit : xs.length < indexLimit) {f : Ref}
    (hf : m.heap.native? (.object f) = some .iteratorConstructor) (receiver : Value)
    (keysOnly : Bool) (n : Nat) :
    ∃ m', (engine (n + 3)).call (.object f) receiver [.object a, .bool keysOnly] m =
        .ok (.object ⟨m.size + 2⟩) m' ∧ m.Grown m' ∧
      m'.Iterates x ⟨m.size + 2⟩ ⟨m.size⟩
        ((if keysOnly then Aspect.positions else .entries).source a xs.length) .fresh := by
  obtain ⟨_, data, heq, hkind, hbehaviour⟩ := Heap.native?_eq_some hf
  cases heq
  obtain ⟨m', hnew, hgrown, hit⟩ := newEnumerable_grown hextensions
    ((if keysOnly then Aspect.positions else .entries).source a xs.length)
  refine ⟨m', ?_, hgrown, hit⟩
  have hsource : (engine (n + 2)).iterationSource (.object a) keysOnly m =
      .ok ((if keysOnly then Aspect.positions else .entries).source a xs.length) m := by
    rw [iterationSource_array (kind_listing ha) (Nat.le_of_lt hlimit)]
    cases keysOnly <;> rfl
  have hiteration : (engine (n + 2)).newIteration (.object a) keysOnly m =
      .ok ⟨m.size + 2⟩ m' := by
    rw [Engine.newIteration, Run.bind_ok hsource, hnew]
  rw [engine_call_native hkind hbehaviour]
  exact Run.bind_ok hiteration

/-- **A fresh iteration over an array gives what stands for its elements**, and of what there was
before it was made nothing has changed. -/
theorem iteratorToList_array (hlimit : xs.length < indexLimit) (hx : m.Pristine x)
    (aspect : Aspect) {m' : Machine} (hgrown : m.Grown m')
    (hit : m'.Iterates x ⟨m.size + 2⟩ ⟨m.size⟩ (aspect.source a xs.length) .fresh) {n : Nat}
    (hn : xs.length < n + 4) :
    ∃ ws m'', (engine (n + 4)).iteratorToList ⟨m.size + 2⟩ m' = .ok ws m'' ∧
      aspect.GivesAll m'.size m''.heap 0 xs ws ∧
      ∀ q, q.index < m.size → m''.heap.object q = m.heap.object q := by
  have hlive : a.index < m.size := Heap.live_of_kind (by simp [kind_listing ha])
  have hreads : m'.ReadsArray x aspect a ⟨m.size + 2⟩ ⟨m.size⟩ xs 0 :=
    ⟨⟨.fresh, rfl, hit⟩, hgrown.pristine hx, (hgrown.object hlive).trans ha⟩
  obtain ⟨ws, m'', hvalues, hall, -, hothers⟩ :=
    hreads.iteratorValues (n := n) hlimit List.drop_zero hn
  refine ⟨ws, m'', ?_, hall, fun q hq => ?_⟩
  · rw [Engine.iteratorToList, limit_engine]
    exact hvalues
  · have hne : q ≠ ⟨m.size⟩ := by
      rintro rfl
      exact absurd hq (Nat.lt_irrefl _)
    rw [hothers q hne (Nat.lt_of_lt_of_le hq hgrown.size_le), hgrown.object hq]

end Making

/-! ## Reading back -/

/-- A realm with an array of three values. -/
def Machine.threeElements : Machine :=
  Run.final (Engine.newArray [.text "a", .null, .bool true] (Session.initialMachine ⟨false, false⟩))

end ObjectModel
