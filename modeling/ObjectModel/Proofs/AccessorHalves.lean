import ObjectModel.Proofs.Definition

/-!
# The two halves of an accessor

The accessor methods define the getter and the setter of a property one at a time.  On an ordinary
object a call succeeds exactly if the object admits the property: it has none under the key and
takes new ones, or it has one that is configurable (`Object.Admits`).  Then the property is an
enumerable and configurable accessor with the function that was given; the other function is the
one that an accessor had before, and a value is forgotten (`Object.Admits.define?_half`).

So the order of the two calls does not matter, and the functions are found again
(`accessor_halves_commute`).
-/

namespace ObjectModel

/-! ## Properties of two functions -/

/-- The half that is not this one. -/
def AccessorHalf.other : AccessorHalf → AccessorHalf
  | .getter => .setter
  | .setter => .getter

/-- The enumerable and configurable accessor with these functions. -/
def Property.accessor (fs : AccessorHalf → Option Ref) : Property :=
  ⟨.accessor (fs .getter) (fs .setter), true, true⟩

namespace AccessorHalf

variable (half : AccessorHalf)

theorem pick_accessor (fs : AccessorHalf → Option Ref) :
    half.pick (Property.accessor fs).toDescriptor = fs half := by
  cases half <;> rfl

/-- The functions after one half has been defined: the other is that of the property before. -/
def joined (half : AccessorHalf) (f : Ref) (current : Option Descriptor) (h : AccessorHalf) :
    Option Ref :=
  if h = half then some f else current.bind h.pick

/-- Both halves are there once both have been defined. -/
theorem joined_joined (fs : AccessorHalf → Ref) (current : Option Descriptor) :
    half.other.joined (fs half.other)
        (some (Property.accessor (half.joined (fs half) current)).toDescriptor) =
      fun h => some (fs h) := by
  funext h
  by_cases hh : h = half.other
  · rw [joined, if_pos hh, hh]
  · have hhalf : h = half := by cases h <;> cases half <;> simp_all [other]
    rw [joined, if_neg hh, Option.bind_some, pick_accessor, joined, if_pos hhalf, hhalf]

/-- A new property has no other half. -/
theorem ofDescriptor_descriptor (f : Ref) :
    Property.ofDescriptor (half.descriptor (some f)) = .accessor (half.joined f none) := by
  cases half <;> rfl

/-- A property keeps its other half, if it has one. -/
theorem merge_descriptor (p : Property) (f : Ref) :
    p.merge (half.descriptor (some f)) = .accessor (half.joined f (some p.toDescriptor)) := by
  obtain ⟨content, enumerable, configurable⟩ := p
  cases content <;> cases half <;> rfl

/-- Only a configurable property becomes a configurable one. -/
theorem admits_descriptor (p : Property) (f : Ref) :
    p.admits (half.descriptor (some f)) = p.configurable := by
  cases half <;> simp [Property.admits, descriptor]

end AccessorHalf

/-! ## Entries that are replaced -/

namespace Slots

variable {κ β : Type} [Ord κ] [Std.TransOrd κ] [Std.LawfulEqOrd κ] {s : Slots κ β} {k : κ}

/-- An entry that is there is replaced in its cell. -/
theorem insert_present {i : Nat} (hk : s.index[k]? = some i) (b : β) :
    (s.insert k b).cells = s.cells.setIfInBounds i (some (k, b)) ∧
      (s.insert k b).index = s.index := by
  unfold insert
  split
  · next j hj =>
    cases hk.symm.trans hj
    exact ⟨rfl, rfl⟩
  · next hnone => cases hk.symm.trans hnone

/-- A new entry takes a new cell. -/
theorem insert_absent (hk : s.index[k]? = none) (b : β) :
    (s.insert k b).cells = s.cells.push (some (k, b)) ∧
      (s.insert k b).index = s.index.insert k s.cells.size := by
  unfold insert
  split
  · next j hj => cases hk.symm.trans hj
  · exact ⟨rfl, rfl⟩

omit [Std.TransOrd κ] [Std.LawfulEqOrd κ] in
theorem eq_of_cells {s' : Slots κ β} (hcells : s.cells = s'.cells) (hindex : s.index = s'.index) :
    s = s' := by
  cases s
  cases s'
  cases hcells
  cases hindex
  rfl

/-- An entry that is replaced at once need not have been there. -/
theorem insert_insert (s : Slots κ β) (k : κ) (b b' : β) :
    (s.insert k b).insert k b' = s.insert k b' := by
  cases hk : s.index[k]? with
  | some i =>
    obtain ⟨hcells, hindex⟩ := insert_present hk b
    obtain ⟨hcells', hindex'⟩ := insert_present hk b'
    obtain ⟨hagain, hkept⟩ := insert_present (s := s.insert k b) (hindex ▸ hk) b'
    refine eq_of_cells ?_ ?_
    · rw [hagain, hcells, hcells', Array.setIfInBounds_setIfInBounds]
    · rw [hkept, hindex, hindex']
  | none =>
    obtain ⟨hcells, hindex⟩ := insert_absent hk b
    obtain ⟨hcells', hindex'⟩ := insert_absent hk b'
    have hthere : (s.insert k b).index[k]? = some s.cells.size := by
      rw [hindex, Std.TreeMap.getElem?_insert_self]
    obtain ⟨hagain, hkept⟩ := insert_present hthere b'
    refine eq_of_cells ?_ ?_
    · rw [hagain, hcells, hcells']
      -- the cell that was pushed is the last one
      apply Array.ext_getElem?
      intro j
      grind
    · rw [hkept, hindex, hindex']

end Slots

/-! ## Objects -/

namespace Object

/-- The object can get a configurable property under the key: it has none and takes new ones, or it
has one that is configurable. -/
def Admits (o : Object) (k : Key) : Prop :=
  match o.ownDescriptor k with
  | none => o.extensible = true
  | some c => c.configurable = some true

/-- The object with an accessor under a key. -/
def withAccessor (o : Object) (k : Key) (fs : AccessorHalf → Option Ref) : Object :=
  { o with properties := o.properties.insert k (.accessor fs) }

variable {o : Object} (ho : o.Ordinary) (k : Key) (half : AccessorHalf) (f : Ref)
  (fs fs' : AccessorHalf → Option Ref)

theorem withAccessor_withAccessor (o : Object) :
    (o.withAccessor k fs).withAccessor k fs' = o.withAccessor k fs' := by
  unfold withAccessor
  rw [Slots.insert_insert]

include ho

theorem redefined_withAccessor :
    o.Redefined (o.withAccessor k fs) k (Property.accessor fs).toDescriptor :=
  redefined_insert (fun harray => absurd (ho.2.symm.trans harray) Bool.false_ne_true) _

/-- What has been defined can be defined again. -/
theorem admits_withAccessor : (o.withAccessor k fs).Admits k := by
  unfold Admits
  rw [(redefined_withAccessor ho k fs).own]
  rfl

/-- **One half is defined where the object admits the property**, and the other stays. -/
theorem Admits.define?_half (h : o.Admits k) :
    o.define? k (half.descriptor (some f)) =
      some (o.withAccessor k (half.joined f (o.ownDescriptor k))) := by
  unfold Admits at h
  rw [ho.ownDescriptor] at h ⊢
  cases hfind : o.properties.find? k with
  | none =>
    simp only [hfind, Option.map_none] at h ⊢
    simp only [define?, hfind, Property.revise, h, if_true, Option.map_some,
      half.ofDescriptor_descriptor, withAccessor]
  | some p =>
    simp only [hfind, Option.map_some, Property.configurable_toDescriptor,
      Option.some.injEq] at h ⊢
    simp only [define?, hfind, Property.revise, half.admits_descriptor, h, if_true,
      Option.map_some, half.merge_descriptor, withAccessor]

/-- Elsewhere it is refused. -/
theorem define?_half_of_not_admits (h : ¬ o.Admits k) :
    o.define? k (half.descriptor (some f)) = none := by
  unfold Admits at h
  rw [ho.ownDescriptor] at h
  cases hfind : o.properties.find? k with
  | none =>
    simp only [hfind, Option.map_none] at h
    simp only [define?, hfind, Property.revise, if_neg h, Option.map_none]
  | some p =>
    simp only [hfind, Option.map_some, Property.configurable_toDescriptor,
      Option.some.injEq] at h
    simp only [define?, hfind, Property.revise, half.admits_descriptor, if_neg h,
      Option.map_none]

end Object

/-! ## The methods -/

/-- The key that a text or a symbol stands for. -/
def Value.key? : Value → Option Key
  | .text t => some (.ofText t)
  | .symbol s => some (.symbol s)
  | _ => none

theorem Engine.toPropertyKey_of_key? {v : Value} {k : Key} (h : v.key? = some k) (eng : Engine) :
    eng.toPropertyKey v = pure k := by
  cases v with
  | text t =>
    cases h
    rfl
  | symbol s =>
    cases h
    rfl
  | _ => cases h

/-- The accessor methods of a realm. -/
structure AccessorMethods where
  define : AccessorHalf → Ref
  lookup : AccessorHalf → Ref

/-- The functions that stand in the heap are the accessor methods. -/
structure Heap.Offers (h : Heap) (methods : AccessorMethods) : Prop where
  define : ∀ half, h.native? (.object (methods.define half)) = some (.defineAccessor half)
  lookup : ∀ half, h.native? (.object (methods.lookup half)) = some (.lookupAccessor half)

namespace AccessorMethods

variable (methods : AccessorMethods) (n : Nat) (o : Ref) (key : Value)

/-- The method of a half is called on an object with a key and a function. -/
def defineHalf (f : AccessorHalf → Ref) (half : AccessorHalf) : Run Value :=
  (engine n).call (.object (methods.define half)) (.object o) [key, .object (f half)]

/-- The methods of both halves are called, one after the other. -/
def defineBoth (f : AccessorHalf → Ref) (first : AccessorHalf) : Run Value :=
  methods.defineHalf n o key f first >>= fun _ => methods.defineHalf n o key f first.other

/-- The function of a half is looked up on an object. -/
def lookUp (half : AccessorHalf) : Run Value :=
  (engine n).call (.object (methods.lookup half)) (.object o) [key]

end AccessorMethods

section Methods

variable {m : Machine} {o : Ref} {key : Value} {k : Key} {half : AccessorHalf}
  {methods : AccessorMethods} {f : AccessorHalf → Ref}

theorem Heap.Offers.replace (hoffers : m.heap.Offers methods) (hlive : o.index < m.size)
    {o' : Object} (hkind : o'.kind = (m.heap.object o).kind) :
    (m.replace o o').heap.Offers methods := by
  have hnative (v : Value) : (m.replace o o').heap.native? v = m.heap.native? v := by
    cases v with
    | object r => simp only [Heap.native?, Machine.kind_replace hlive hkind]
    | _ => rfl
  exact ⟨fun half => (hnative _).trans (hoffers.define half),
    fun half => (hnative _).trans (hoffers.lookup half)⟩

/-- A call of a look-up method converts the key, and looks along the chain that there is then. -/
theorem lookUp_apply (hoffers : m.heap.Offers methods) {n : Nat} {m' : Machine}
    (hkey : (engine n).toPropertyKey key m = .ok k m') :
    methods.lookUp (n + 1) o key half m =
      (engine n).findAccessor half k (m'.heap.ancestors o) m' := by
  obtain ⟨r, data, hr, hkind, hbehaviour⟩ := Heap.native?_eq_some (hoffers.lookup half)
  cases hr
  refine (engine_call_native hkind hbehaviour _ _).trans ?_
  show ((engine n).toPropertyKey key >>= fun k => Run.heap >>= fun heap =>
    (engine n).findAccessor half k (heap.ancestors o)) m = _
  rw [Run.bind_ok hkey]
  rfl

variable (hoffers : m.heap.Offers methods) (hordinary : (m.heap.object o).Ordinary)
  (hkey : key.key? = some k) (hf : m.heap.callable? (.object (f half)) = some (f half)) (n : Nat)

include hoffers hordinary hkey

section Definition

include hf

/-- A call of a defining method defines the property or throws. -/
theorem defineHalf_apply :
    methods.defineHalf (n + 2) o key f half m =
      match (m.heap.object o).define? k (half.descriptor (some (f half))) with
      | some o' => .ok .undefined (m.replace o o')
      | none => Run.fail (.propertyNotDefined (m.heap.displayKey k)) m := by
  obtain ⟨g, data, hg, hkind, hbehaviour⟩ := Heap.native?_eq_some (hoffers.define half)
  cases hg
  have hdefine : (engine (n + 1)).defineOwnProperty o k (half.descriptor (some (f half))) m =
      Engine.reviseObject o (fun a => a.define? k (half.descriptor (some (f half)))) m := by
    rw [← hostedEngine_none]
    exact hosted_defineOwnProperty hordinary _
  have hrun : (engine (n + 1)).defineAccessor half (.object o) key (.object (f half)) m =
      (engine (n + 1)).definePropertyOrThrow o k (half.descriptor (some (f half))) m := by
    simp only [Engine.defineAccessor, Value.isNullish, Value.isUndefined, Bool.false_eq_true,
      if_false, Engine.toObject, pure_bind, Run.bind_apply, Run.callable?, hf,
      Engine.toPropertyKey_of_key? hkey]
  refine (engine_call_native hkind hbehaviour _ _).trans ?_
  show ((engine (n + 1)).defineAccessor half (.object o) key (.object (f half)) >>= fun _ =>
    pure Value.undefined) m = _
  rw [Run.bind_apply, hrun]
  unfold Engine.definePropertyOrThrow
  rw [Run.bind_apply, hdefine, Engine.reviseObject_apply]
  cases (m.heap.object o).define? k (half.descriptor (some (f half))) <;> rfl

/-- Where the object admits the property, the call defines the half. -/
theorem defineHalf_of_admits (hadmits : (m.heap.object o).Admits k) :
    methods.defineHalf (n + 2) o key f half m =
      .ok .undefined (m.replace o ((m.heap.object o).withAccessor k
        (half.joined (f half) ((m.heap.object o).ownDescriptor k)))) := by
  rw [defineHalf_apply hoffers hordinary hkey hf, hadmits.define?_half hordinary]

/-- Elsewhere the call throws. -/
theorem defineHalf_of_not_admits (hadmits : ¬ (m.heap.object o).Admits k) :
    methods.defineHalf (n + 2) o key f half m =
      Run.fail (.propertyNotDefined (m.heap.displayKey k)) m := by
  rw [defineHalf_apply hoffers hordinary hkey hf,
    Object.define?_half_of_not_admits hordinary k half (f half) hadmits]

end Definition

/-- A function of the object's own accessor is found. -/
theorem lookUp_own {d : Descriptor} (hown : (m.heap.object o).ownDescriptor k = some d) {g : Ref}
    (hg : half.pick d = some g) :
    methods.lookUp (n + 2) o key half m = .ok (.object g) m := by
  have hread : (engine (n + 1)).getOwnProperty o k m = .ok (some d) m := by
    rw [← hostedEngine_none, hosted_getOwnProperty hordinary.1, hown]
  have hancestors : m.heap.ancestors o =
      o :: m.heap.ancestorsWithin m.heap.objects.size [o] (m.heap.prototypeOf o) := by
    simp [Heap.ancestors, Heap.ancestorsWithin]
  rw [lookUp_apply hoffers (congrFun (Engine.toPropertyKey_of_key? hkey _) m),
    hancestors]
  simp only [Engine.findAccessor, Run.bind_apply, hread, Option.bind_some, hg]
  rfl

end Methods

/-- **The order in which the halves are defined does not matter.**  On an ordinary object the two
calls succeed, in either order, exactly if the object admits the property.  Then the property is the
enumerable and configurable accessor with both functions, nothing else changes, and each function is
found again; and either call alone defines its half and keeps the other.  Otherwise either call
throws a type error and the object stays as it is. -/
theorem accessor_halves_commute {m : Machine} {o : Ref} (hlive : o.index < m.size)
    (hordinary : (m.heap.object o).Ordinary) {key : Value} {k : Key} (hkey : key.key? = some k)
    {methods : AccessorMethods} (hoffers : m.heap.Offers methods) {f : AccessorHalf → Ref}
    (hf : ∀ half, m.heap.callable? (.object (f half)) = some (f half)) (n : Nat) :
    (methods.defineBoth (n + 2) o key f .getter m =
      methods.defineBoth (n + 2) o key f .setter m) ∧
    ((m.heap.object o).Admits k ∧
      (∃ o', (∀ first, methods.defineBoth (n + 2) o key f first m =
          .ok .undefined (m.replace o o')) ∧
        (m.heap.object o).Redefined o' k
          { get := some (some (f .getter)), set := some (some (f .setter))
            enumerable := some true, configurable := some true } ∧
        ∀ half, methods.lookUp (n + 2) o key half (m.replace o o') =
          .ok (.object (f half)) (m.replace o o')) ∧
      (∀ half, ∃ o', methods.defineHalf (n + 2) o key f half m =
          .ok .undefined (m.replace o o') ∧
        (m.heap.object o).Redefined o' k (Property.accessor
          (half.joined (f half) ((m.heap.object o).ownDescriptor k))).toDescriptor) ∨
    ¬ (m.heap.object o).Admits k ∧
      ∃ v m', (∀ half, methods.defineHalf (n + 2) o key f half m = .error (.thrown v) m') ∧
        (∀ first, methods.defineBoth (n + 2) o key f first m = .error (.thrown v) m') ∧
        Session.errorKind? m'.heap v = some .typeError ∧ m.Grown m' ∧
        m'.heap.object o = m.heap.object o) := by
  by_cases hadmits : (m.heap.object o).Admits k
  · have halone (half : AccessorHalf) := defineHalf_of_admits hoffers hordinary hkey (hf half) n
      hadmits
    have hjoined (fs : AccessorHalf → Option Ref) :=
      Object.redefined_withAccessor hordinary k fs
    let o' := (m.heap.object o).withAccessor k fun half => some (f half)
    have hboth (first : AccessorHalf) : methods.defineBoth (n + 2) o key f first m =
        .ok .undefined (m.replace o o') := by
      refine (Run.bind_ok (halone first)).trans ?_
      -- the second call finds what the first has defined
      generalize hfs : first.joined (f first) ((m.heap.object o).ownDescriptor k) = fs
      have hredefined := hjoined fs
      have hobject : (m.replace o ((m.heap.object o).withAccessor k fs)).heap.object o =
          (m.heap.object o).withAccessor k fs := by
        rw [Machine.object_replace hlive, if_pos rfl]
      have hordinary' := hordinary.of_kind hredefined.kind
      rw [defineHalf_of_admits (hoffers.replace hlive hredefined.kind) (by rwa [hobject]) hkey
        (Machine.callable?_replace hlive hredefined.kind (hf _)) n
        (by rw [hobject]; exact Object.admits_withAccessor hordinary k fs), hobject,
        Machine.replace_replace, Object.withAccessor_withAccessor, hredefined.own, ← hfs,
        first.joined_joined]
    have hredefined := hjoined fun half => some (f half)
    have hobject : (m.replace o o').heap.object o = o' := by
      rw [Machine.object_replace hlive, if_pos rfl]
    refine ⟨(hboth .getter).trans (hboth .setter).symm, .inl ⟨hadmits,
      ⟨o', hboth, hredefined, fun half => ?_⟩, fun half => ⟨_, halone half, hjoined _⟩⟩⟩
    refine lookUp_own (hoffers.replace hlive hredefined.kind) ?_ hkey n ?_
      (half.pick_accessor fun half => some (f half))
    · rw [hobject]
      exact hordinary.of_kind hredefined.kind
    · rw [hobject]
      exact hredefined.own
  · obtain ⟨v, m', hfail, hgrown, hkind⟩ :=
      fail_apply (α := Value) (.propertyNotDefined (m.heap.displayKey k)) m
    have halone (half : AccessorHalf) := (defineHalf_of_not_admits hoffers hordinary hkey (hf half) n
      hadmits).trans hfail
    have hboth (first : AccessorHalf) := Run.bind_error (halone first)
      (f := fun _ => methods.defineHalf (n + 2) o key f first.other)
    exact ⟨(hboth .getter).trans (hboth .setter).symm,
      .inr ⟨hadmits, v, m', halone, hboth, hkind, hgrown, hgrown.object hlive⟩⟩

/-! ### A closed object with a value and a fixed setter -/

/-- An object that takes no properties, with a value that can be replaced and an accessor that
cannot. -/
def Object.closedWithAccessor : Object :=
  { Object.new none .ordinary with
    extensible := false
    properties := (PropertyTable.empty.insert "x" (.data .null false false true)).insert "y"
      ⟨.accessor none (some ⟨50⟩), true, false⟩ }

/-- The realm with the extensions and such an object at place 74. -/
def Machine.closedWithAccessor : Machine :=
  (Session.initialMachine ⟨false, false⟩).withHeap
    ((Session.initialMachine ⟨false, false⟩).heap.allocate .closedWithAccessor).2

/-- The accessor methods of that realm. -/
def AccessorMethods.ofRealm : AccessorMethods where
  define
    | .getter => ⟨50⟩
    | .setter => ⟨51⟩
  lookup
    | .getter => ⟨52⟩
    | .setter => ⟨53⟩

/-- The value gives way to an accessor, whichever half comes first, and the fixed accessor stays. -/
theorem accessor_halves_of_closedWithAccessor :
    74 < Machine.closedWithAccessor.size ∧ (Machine.closedWithAccessor.heap.object ⟨74⟩).Ordinary ∧
    Machine.closedWithAccessor.heap.Offers .ofRealm ∧
    (∀ half,
      Machine.closedWithAccessor.heap.callable? (.object (AccessorMethods.ofRealm.lookup half)) =
      some (AccessorMethods.ofRealm.lookup half)) ∧
    (∃ o', (∀ first, AccessorMethods.ofRealm.defineBoth 2 ⟨74⟩ (.text "x")
        AccessorMethods.ofRealm.lookup first Machine.closedWithAccessor =
          .ok .undefined (Machine.closedWithAccessor.replace ⟨74⟩ o')) ∧
      o'.ownDescriptor "x" = some { get := some (some ⟨52⟩), set := some (some ⟨53⟩)
                                    enumerable := some true, configurable := some true }) ∧
    ∃ v m', (∀ half, AccessorMethods.ofRealm.defineHalf 2 ⟨74⟩ (.text "y")
        AccessorMethods.ofRealm.lookup half Machine.closedWithAccessor = .error (.thrown v) m') ∧
      Session.errorKind? m'.heap v = some .typeError := by
  have hdecided : Machine.closedWithAccessor.heap.objects.size = 75 ∧
      (Machine.closedWithAccessor.heap.object ⟨74⟩).isProxy = false ∧
      (Machine.closedWithAccessor.heap.object ⟨74⟩).isArray = false ∧
      (Machine.closedWithAccessor.heap.object ⟨74⟩).ownDescriptor "x" =
        some (Property.data .null false false true).toDescriptor ∧
      (Machine.closedWithAccessor.heap.object ⟨74⟩).ownDescriptor "y" =
        some (Property.mk (.accessor none (some ⟨50⟩)) true false).toDescriptor ∧
      (∀ half ∈ [AccessorHalf.getter, AccessorHalf.setter],
        Machine.closedWithAccessor.heap.native? (.object (AccessorMethods.ofRealm.define half)) =
          some (.defineAccessor half) ∧
        Machine.closedWithAccessor.heap.native? (.object (AccessorMethods.ofRealm.lookup half)) =
          some (.lookupAccessor half) ∧
        Machine.closedWithAccessor.heap.callable? (.object (AccessorMethods.ofRealm.lookup half)) =
          some (AccessorMethods.ofRealm.lookup half)) := by decide +kernel
  -- from here on the machine is not evaluated any more
  generalize Machine.closedWithAccessor = m at *
  obtain ⟨hsize, hproxy, harray, hx, hy, hmethods⟩ := hdecided
  have hlive : 74 < m.size := by
    show 74 < m.heap.objects.size
    omega
  have hordinary : (m.heap.object ⟨74⟩).Ordinary := ⟨hproxy, harray⟩
  have hall (half : AccessorHalf) := hmethods half (by cases half <;> decide)
  have hoffers : m.heap.Offers .ofRealm := ⟨fun half => (hall half).1, fun half => (hall half).2.1⟩
  have hf (half : AccessorHalf) := (hall half).2.2
  have hadmits : (m.heap.object ⟨74⟩).Admits "x" := by
    unfold Object.Admits
    rw [hx]
    rfl
  have hrefuses : ¬ (m.heap.object ⟨74⟩).Admits "y" := by
    unfold Object.Admits
    rw [hy]
    intro hconfigurable
    cases hconfigurable
  have hkey (t : Text) : (Value.text t).key? = some (.ofText t) := rfl
  refine ⟨hlive, hordinary, hoffers, hf, ?_, ?_⟩
  · obtain ⟨-, ⟨-, ⟨o', hboth, hredefined, -⟩, -⟩ | ⟨hno, -⟩⟩ :=
      accessor_halves_commute hlive hordinary (hkey "x") hoffers hf 0
    · exact ⟨o', hboth, hredefined.own⟩
    · exact absurd hadmits hno
  · obtain ⟨-, ⟨hyes, -⟩ | ⟨-, v, m', halone, -, hkind, -⟩⟩ :=
      accessor_halves_commute hlive hordinary (hkey "y") hoffers hf 0
    · exact absurd hyes hrefuses
    · exact ⟨v, m', halone, hkind⟩

end ObjectModel
