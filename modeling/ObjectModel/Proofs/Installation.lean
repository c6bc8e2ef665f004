import ObjectModel.Proofs.Discipline
import ObjectModel.Proofs.Slots

/-!
# Installing the extensions

Installation makes new objects and puts members on some of the intrinsic ones.  `Populated` says
what that does to the objects of an earlier machine: each keeps its prototype and its kind, gets
properties under known keys, all of which refer to new objects, and takes properties again if it
gets any.  At the end the prototype of list iterators is linked to the new iterator prototype.
-/

namespace ObjectModel

/-! ## Objects that get members -/

/-- The property refers to an object from place `s` on. -/
def Property.IsFresh (s : Nat) (p : Property) : Prop := ∃ q : Ref, refers p q ∧ s ≤ q.index

namespace Object

/-- An object as the realm makes them. -/
def IsBuiltin (o : Object) : Prop :=
  (o.isProxy = false ∧ o.isArray = false) ∧ (o.prototype = some Intrinsic.objectPrototype.ref ∨
    o.prototype = some Intrinsic.functionPrototype.ref)

/-- The object with fresh properties under the given keys, and nothing else changed. -/
structure Populated (s : Nat) (ks : List Key) (o o' : Object) : Prop where
  prototype : o'.prototype = o.prototype
  kind : o'.kind = o.kind
  extensible : o'.extensible = (o.extensible || !ks.isEmpty)
  stored : ∀ k, k ∉ ks → o'.properties.find? k = o.properties.find? k
  fresh : ∀ k, k ∈ ks → ∃ p, o'.properties.find? k = some p ∧ p.IsFresh s

variable {s : Nat} {ks : List Key} {o o' : Object}

theorem Populated.refl (o : Object) : o.Populated s [] o :=
  ⟨rfl, rfl, by simp, fun _ _ => rfl, nofun⟩

theorem Populated.trans {ks' : List Key} {o'' : Object} (h : o.Populated s ks o')
    (h' : o'.Populated s ks' o'') : o.Populated s (ks ++ ks') o'' := by
  refine ⟨h'.prototype.trans h.prototype, h'.kind.trans h.kind, ?_, fun k hk => ?_, fun k hk => ?_⟩
  · rw [h'.extensible, h.extensible]
    cases ks <;> simp
  · rw [List.mem_append, not_or] at hk
    rw [h'.stored k hk.2, h.stored k hk.1]
  · by_cases hlast : k ∈ ks'
    · exact h'.fresh k hlast
    · rw [h'.stored k hlast]
      exact h.fresh k ((List.mem_append.1 hk).resolve_right hlast)

theorem populated_populate {ps : List (Key × Property)} (hne : ps ≠ [])
    (hps : ∀ e ∈ ps, e.2.IsFresh s) : o.Populated s (ps.map Prod.fst) (o.populate ps true) := by
  refine ⟨rfl, rfl, ?_, fun k hk => Slots.find?_insertAll_of_not_mem hk, fun k hk => ?_⟩
  · cases ps with
    | nil => exact absurd rfl hne
    | cons e ps => simp [Object.populate]
  · obtain ⟨p, hmem, hfind⟩ := Slots.find?_insertAll_of_mem (s := o.properties) hk
    exact ⟨p, hfind, hps _ hmem⟩

end Object

/-! ## Machines while members are added -/

/-- The keys with further ones for one object. -/
def addKeys (keys : Ref → List Key) (o : Ref) (ks : List Key) : Ref → List Key :=
  fun r => keys r ++ if o = r then ks else []

namespace Machine

/-- The objects of an earlier machine with fresh properties under the given keys, and new objects
of the realm after them. -/
structure Populated (s : Nat) (keys : Ref → List Key) (m₀ m : Machine) : Prop where
  grows : m₀.size ≤ m.size
  old : ∀ r, r.index < m₀.size → (m₀.heap.object r).Populated s (keys r) (m.heap.object r)
  added : ∀ r, m₀.size ≤ r.index → r.index < m.size → (m.heap.object r).IsBuiltin

variable {s : Nat} {keys : Ref → List Key} {m₀ m m' : Machine}

theorem Populated.refl (m : Machine) : m.Populated s (fun _ => []) m :=
  ⟨Nat.le_refl _, fun _ _ => .refl _, fun _ hr hr' => absurd hr (Nat.not_le.2 hr')⟩

/-- Only the objects matter. -/
theorem Populated.congr (h : m₀.Populated s keys m) (hm : m'.heap.objects = m.heap.objects) :
    m₀.Populated s keys m' := by
  have hsize : m'.size = m.size := congrArg Array.size hm
  have hobject (r : Ref) : m'.heap.object r = m.heap.object r := by
    unfold Heap.object
    rw [hm]
  refine ⟨hsize ▸ h.grows, fun r hr => ?_, fun r hr hr' => ?_⟩
  · rw [hobject]
    exact h.old r hr
  · rw [hobject]
    exact h.added r hr (hsize ▸ hr')

theorem Populated.trans {keys' : Ref → List Key} (h : m₀.Populated s keys m)
    (h' : m.Populated s keys' m') : m₀.Populated s (fun r => keys r ++ keys' r) m' := by
  refine ⟨Nat.le_trans h.grows h'.grows, fun r hr => ?_, fun r hr hr' => ?_⟩
  · exact (h.old r hr).trans (h'.old r (Nat.lt_of_lt_of_le hr h.grows))
  · by_cases hlive : r.index < m.size
    · have hkept := h'.old r hlive
      obtain ⟨hkind, hprototype⟩ := h.added r hr hlive
      refine ⟨?_, by rwa [hkept.prototype]⟩
      unfold Object.isProxy Object.isArray at hkind ⊢
      rw [hkept.kind]
      exact hkind
    · exact h'.added r (Nat.not_lt.1 hlive) hr'

theorem Populated.allocate (h : m₀.Populated s keys m) {o : Object} (ho : o.IsBuiltin) :
    m₀.Populated s keys (m.withHeap (m.heap.allocate o).2) := by
  have hsize : (m.withHeap (m.heap.allocate o).2).size = m.size + 1 := Heap.size_allocate ..
  have hgrows := h.grows
  refine ⟨by omega, fun r hr => ?_, fun r hr hr' => ?_⟩
  · rw [heap_withHeap, m.heap.object_allocate_of_lt o (Nat.lt_of_lt_of_le hr hgrows)]
    exact h.old r hr
  · rw [heap_withHeap, Heap.object_allocate]
    split
    · exact ho
    · next hlast =>
      have hne : r.index ≠ m.size := hlast
      exact h.added r hr (by omega)

/-- Members are put on an existing object, be it old or new. -/
theorem Populated.populate (h : m₀.Populated s keys m) {o : Ref} (ho : o.index < m.size)
    {ps : List (Key × Property)} (hne : ps ≠ []) (hps : ∀ e ∈ ps, e.2.IsFresh s) :
    m₀.Populated s (addKeys keys o (ps.map Prod.fst))
      (m.withHeap (m.heap.modify o fun object => object.populate ps true)) := by
  have hsize : (m.withHeap (m.heap.modify o fun object => object.populate ps true)).size = m.size :=
    Heap.size_modify ..
  refine ⟨hsize ▸ h.grows, fun r hr => ?_, fun r hr hr' => ?_⟩
  · unfold addKeys
    rw [heap_withHeap, Heap.object_modify]
    by_cases hro : r = o
    · subst hro
      rw [if_pos rfl, if_pos ⟨rfl, ho⟩]
      exact (h.old r hr).trans (Object.populated_populate hne hps)
    · rw [if_neg fun h => hro h.symm, List.append_nil, if_neg fun h => hro h.1]
      exact h.old r hr
  · rw [heap_withHeap, Heap.object_modify]
    split
    · next hro =>
      rw [← hro.1]
      exact h.added r hr (hsize ▸ hr')
    · exact h.added r hr (hsize ▸ hr')

/-- A new object may be revised in any way that keeps its prototype and its kind. -/
theorem Populated.revise (h : m₀.Populated s keys m) {o : Ref} (ho : m₀.size ≤ o.index)
    {f : Object → Object} (hf : ∀ object : Object, object.IsBuiltin → (f object).IsBuiltin) :
    m₀.Populated s keys (m.withHeap (m.heap.modify o f)) := by
  have hsize : (m.withHeap (m.heap.modify o f)).size = m.size := Heap.size_modify ..
  refine ⟨hsize ▸ h.grows, fun r hr => ?_, fun r hr hr' => ?_⟩
  · have hro : ¬ (r = o ∧ o.index < m.heap.objects.size) := by
      rintro ⟨rfl, -⟩
      exact Nat.not_le.2 hr ho
    rw [heap_withHeap, Heap.object_modify, if_neg hro]
    exact h.old r hr
  · rw [heap_withHeap, Heap.object_modify]
    split
    · next hro =>
      rw [← hro.1]
      exact hf _ (h.added r hr (hsize ▸ hr'))
    · exact h.added r hr (hsize ▸ hr')

end Machine

/-! ## Members -/

namespace Member

def key : Member → Key
  | .method name _ _ => name
  | .getter key _ _ _ => key
  | .value name _ => name

/-- A member with a given value is about a fresh object. -/
def IsFresh (s : Nat) : Member → Prop
  | .value _ v => ∃ q : Ref, refers v q ∧ s ≤ q.index
  | .method _ _ _ | .getter _ _ _ _ => True

end Member

/-- The keys that objects get by members selected for intrinsic objects. -/
def selectedKeys (select : Intrinsic → List Member) (is : List Intrinsic) (r : Ref) : List Key :=
  is.flatMap fun i => if i.ref = r then (select i).map Member.key else []

/-- The keys that installation puts on an existing object. -/
def installedKeys (r : Ref) : List Key :=
  selectedKeys Intrinsic.extensionMembers Intrinsic.all r ++
    if Intrinsic.globalObject.ref = r then [Key.ofString "Proxy", Key.ofString "Iterator"] else []

namespace Machine.Populated

variable {s : Nat} {keys : Ref → List Key} {m₀ m : Machine}

/-- A new builtin function stands at the end of the heap. -/
theorem newNative (h : m₀.Populated s keys m) (name : String) (length : Nat) (f : Native) :
    ∃ m', Engine.newNative name length f m = .ok ⟨m.size⟩ m' ∧ m'.size = m.size + 1 ∧
      m₀.Populated s keys m' :=
  ⟨_, rfl, Heap.size_allocate .., h.allocate ⟨⟨rfl, rfl⟩, .inr rfl⟩⟩

theorem newMember (h : m₀.Populated s keys m) (hs : s ≤ m₀.size) {member : Member}
    (hmember : member.IsFresh s) :
    ∃ p m', Engine.newMember member m = .ok (member.key, p) m' ∧ p.IsFresh s ∧
      m.size ≤ m'.size ∧ m₀.Populated s keys m' := by
  have hfresh : s ≤ m.size := Nat.le_trans hs h.grows
  cases member with
  | method name length f =>
    obtain ⟨m', hrun, hsize, hm'⟩ := h.newNative name length f
    refine ⟨.hidden (.object ⟨m.size⟩), m', ?_, ⟨⟨m.size⟩, rfl, hfresh⟩, by omega, hm'⟩
    exact Run.bind_ok hrun
  | getter key name f configurable =>
    obtain ⟨m', hrun, hsize, hm'⟩ := h.newNative name 0 f
    refine ⟨⟨.accessor (some ⟨m.size⟩) none, false, configurable⟩, m', ?_,
      ⟨⟨m.size⟩, .inl ⟨_, rfl, rfl⟩, hfresh⟩, by omega, hm'⟩
    exact Run.bind_ok hrun
  | value name v => exact ⟨.hidden v, m, rfl, hmember, Nat.le_refl _, h⟩

theorem newMembers (h : m₀.Populated s keys m) (hs : s ≤ m₀.size) {ms : List Member}
    (hms : ∀ member ∈ ms, member.IsFresh s) :
    ∃ ps m', Engine.newMembers ms m = .ok ps m' ∧ ps.map Prod.fst = ms.map Member.key ∧
      (∀ e ∈ ps, e.2.IsFresh s) ∧ m.size ≤ m'.size ∧ m₀.Populated s keys m' := by
  induction ms generalizing m with
  | nil => exact ⟨[], m, rfl, rfl, nofun, Nat.le_refl _, h⟩
  | cons member rest ih =>
    obtain ⟨p, m₁, hrun₁, hp, hsize₁, h₁⟩ := h.newMember hs (hms member List.mem_cons_self)
    obtain ⟨ps, m₂, hrun₂, hkeys, hps, hsize₂, h₂⟩ :=
      ih h₁ fun member hmember => hms member (List.mem_cons_of_mem _ hmember)
    refine ⟨(member.key, p) :: ps, m₂, ?_, by simp [hkeys], ?_, Nat.le_trans hsize₁ hsize₂, h₂⟩
    · show (Engine.newMember member >>= fun property =>
        Engine.newMembers rest >>= fun properties => pure (property :: properties)) m = _
      rw [Run.bind_ok hrun₁, Run.bind_ok hrun₂]
      rfl
    · intro e he
      rcases List.mem_cons.1 he with rfl | he
      · exact hp
      · exact hps e he

theorem addMembers (h : m₀.Populated s keys m) (hs : s ≤ m₀.size) {o : Ref}
    (ho : o.index < m.size) {ms : List Member} (hne : ms ≠ [])
    (hms : ∀ member ∈ ms, member.IsFresh s) :
    ∃ m', Engine.addMembers o ms m = .ok () m' ∧ m.size ≤ m'.size ∧
      m₀.Populated s (addKeys keys o (ms.map Member.key)) m' := by
  obtain ⟨ps, m₁, hrun, hkeys, hps, hsize, h₁⟩ := h.newMembers hs hms
  have hne : ps ≠ [] := by
    rintro rfl
    exact hne (List.map_eq_nil_iff.1 hkeys.symm)
  refine ⟨_, Run.bind_ok hrun, ?_, hkeys ▸ h₁.populate (Nat.lt_of_lt_of_le ho hsize) hne hps⟩
  exact Nat.le_trans hsize (Nat.le_of_eq (Heap.size_modify ..).symm)

theorem addIntrinsicMembers (h : m₀.Populated s keys m) (hs : s ≤ m₀.size)
    (hsize : Intrinsic.all.length ≤ m₀.size) {select : Intrinsic → List Member}
    (hselect : ∀ i, ∀ member ∈ select i, member.IsFresh s) (is : List Intrinsic) :
    ∃ m', Engine.addIntrinsicMembers select is m = .ok () m' ∧ m.size ≤ m'.size ∧
      m₀.Populated s (fun r => keys r ++ selectedKeys select is r) m' := by
  induction is generalizing m keys with
  | nil => exact ⟨m, rfl, Nat.le_refl _, by simpa [selectedKeys] using h⟩
  | cons i rest ih =>
    have hkeys : (fun r => keys r ++ selectedKeys select (i :: rest) r) = fun r =>
        addKeys keys i.ref ((select i).map Member.key) r ++ selectedKeys select rest r := by
      funext r
      simp [selectedKeys, addKeys]
    rw [hkeys]
    by_cases hempty : select i = []
    · obtain ⟨m', hrun, hgrows, h'⟩ := ih h
      refine ⟨m', ?_, hgrows, ?_⟩
      · simp only [Engine.addIntrinsicMembers, hempty, List.isEmpty_nil]
        exact hrun
      · have hsame : addKeys keys i.ref ((select i).map Member.key) = keys := by
          funext r
          simp [addKeys, hempty]
        rwa [hsame]
    · have hlive : i.ref.index < m.size :=
        Nat.lt_of_lt_of_le i.index_ref_lt (Nat.le_trans hsize h.grows)
      obtain ⟨m₁, hrun₁, hgrows₁, h₁⟩ := h.addMembers hs hlive hempty (hselect i)
      obtain ⟨m₂, hrun₂, hgrows₂, h₂⟩ := ih h₁
      refine ⟨m₂, ?_, Nat.le_trans hgrows₁ hgrows₂, h₂⟩
      have hisEmpty : (select i).isEmpty = false := by simpa using hempty
      simp only [Engine.addIntrinsicMembers, hisEmpty]
      exact (Run.bind_ok hrun₁).trans hrun₂

theorem addExtensions (h : m₀.Populated s keys m) (hs : s ≤ m₀.size)
    (hsize : Intrinsic.all.length ≤ m₀.size) {x : Extensions}
    (hprototype : x.iteratorPrototype.index < m.size)
    (hconstructor : m₀.size ≤ x.iteratorConstructor.index) :
    ∃ m₁ keys', Engine.addExtensions x m = .ok () (m₁.withHeap
        (m₁.heap.modify Intrinsic.listIteratorPrototype.ref fun object =>
          { object with prototype := some x.iteratorPrototype })) ∧
      m.size ≤ m₁.size ∧ m₀.Populated s keys' m₁ ∧
      ∀ r, r.index < m₀.size → r ≠ x.iteratorPrototype → keys' r = keys r ++ installedKeys r := by
  have hextension (i : Intrinsic) : ∀ member ∈ i.extensionMembers, member.IsFresh s := by
    cases i <;> simp [Intrinsic.extensionMembers, Member.IsFresh]
  have hfresh : s ≤ x.iteratorConstructor.index := Nat.le_trans hs hconstructor
  obtain ⟨m₁, hrun₁, hgrows₁, h₁⟩ := h.addIntrinsicMembers hs hsize hextension Intrinsic.all
  -- the object that holds the functions for proxies
  let proxy : Object := .new (some Intrinsic.objectPrototype.ref) .ordinary
  have hnew : Engine.newObject (some Intrinsic.objectPrototype.ref) m₁ =
      .ok ⟨m₁.size⟩ (m₁.withHeap (m₁.heap.allocate proxy).2) := rfl
  have h₂ := h₁.allocate (o := proxy) ⟨⟨rfl, rfl⟩, .inl rfl⟩
  have hgrows₂ : (m₁.withHeap (m₁.heap.allocate proxy).2).size = m₁.size + 1 :=
    Heap.size_allocate ..
  have hproxy : m₁.size < (m₁.withHeap (m₁.heap.allocate proxy).2).size := by omega
  have hproxyMembers : ∀ member ∈ [Member.method "create" 2 .proxyCreate,
      .method "createFunction" 3 .proxyCreateFunction], member.IsFresh s := by
    simp [Member.IsFresh]
  obtain ⟨m₃, hrun₃, hgrows₃, h₃⟩ := h₂.addMembers (o := ⟨m₁.size⟩) hs hproxy (by simp)
    hproxyMembers
  -- the constructor, which is new, is linked to the prototype
  let linked (object : Object) : Object :=
    { object with
      properties :=
        object.properties.insert "prototype"
          (.data (.object x.iteratorPrototype) false false false) }
  have hlink : Run.update x.iteratorConstructor linked m₃ =
      .ok () (m₃.withHeap (m₃.heap.modify x.iteratorConstructor linked)) := rfl
  have h₄ := h₃.revise (f := linked) hconstructor fun _ hobject => hobject
  have hgrows₄ : (m₃.withHeap (m₃.heap.modify x.iteratorConstructor linked)).size = m₃.size :=
    Heap.size_modify ..
  have hprototypeMembers : ∀ member ∈ [Member.method "next" 0 .iterationNext,
      .method "iterator" 0 .iterationSelf, .value "constructor" (.object x.iteratorConstructor)],
      member.IsFresh s := by
    simp only [List.forall_mem_cons, Member.IsFresh]
    exact ⟨trivial, trivial, ⟨_, rfl, hfresh⟩, nofun⟩
  obtain ⟨m₅, hrun₅, hgrows₅, h₅⟩ := h₄.addMembers (o := x.iteratorPrototype) hs (by omega)
    (by simp) hprototypeMembers
  have hglobalMembers : ∀ member ∈ [Member.value "Proxy" (.object ⟨m₁.size⟩),
      .value "Iterator" (.object x.iteratorConstructor)], member.IsFresh s := by
    simp only [List.forall_mem_cons, Member.IsFresh]
    exact ⟨⟨_, rfl, Nat.le_trans hs h₁.grows⟩, ⟨_, rfl, hfresh⟩, nofun⟩
  have hglobal : Intrinsic.globalObject.ref.index < m₅.size := by
    have hlive : Intrinsic.globalObject.ref.index < Intrinsic.all.length := by decide
    have hgrows := h₅.grows
    omega
  obtain ⟨m₆, hrun₆, hgrows₆, h₆⟩ := h₅.addMembers hs hglobal (by simp) hglobalMembers
  refine ⟨m₆, _, ?_, by omega, h₆, fun r hr hrp => ?_⟩
  · unfold Engine.addExtensions
    rw [Run.bind_ok hrun₁, Run.bind_ok hnew, Run.bind_ok hrun₃]
    refine (Run.bind_ok hlink).trans ?_
    rw [Run.bind_ok hrun₅, Run.bind_ok hrun₆]
    rfl
  · have hr₁ : (⟨m₁.size⟩ : Ref) ≠ r := by
      rintro rfl
      exact absurd hr (Nat.not_lt.2 h₁.grows)
    simp [addKeys, installedKeys, hr₁, Ne.symm hrp, Member.key]

end Machine.Populated

/-! ## Installation -/

/-- A new iteration object and its next method stand at the end of the heap. -/
theorem Machine.Populated.newIterationObject {s : Nat} {keys : Ref → List Key} {m₀ m : Machine}
    (h : m₀.Populated s keys m) (next : Symbol) (source : IterationSource) :
    ∃ m', Engine.newIterationObject Intrinsic.objectPrototype.ref next source m =
        .ok ⟨m.size⟩ m' ∧ m'.size = m.size + 2 ∧ m₀.Populated s keys m' ∧
      (m'.heap.object ⟨m.size⟩).prototype = some Intrinsic.objectPrototype.ref := by
  let object : Object := .new (some Intrinsic.objectPrototype.ref) (.iterator source .fresh)
  let function : Object :=
    { Object.new (some Intrinsic.functionPrototype.ref)
        (.function ⟨.advances ⟨m.size⟩, "next", none⟩) with
      properties :=
        (PropertyTable.empty.insert .length (.data (.ofNat 0) false false true)).insert
          "name" (.data (.text "next") false false true) }
  let linked (o : Object) : Object :=
    { o with
      properties :=
        o.properties.insert (.symbol next)
          (.data (.object ((m.heap.allocate object).2.allocate function).1) false false false) }
  let m₁ := m.withHeap (m.heap.allocate object).2
  let m₂ := m₁.withHeap (m₁.heap.allocate function).2
  have h₁ : m₀.Populated s keys m₁ := h.allocate ⟨⟨rfl, rfl⟩, .inl rfl⟩
  have h₂ : m₀.Populated s keys m₂ := h₁.allocate ⟨⟨rfl, rfl⟩, .inr rfl⟩
  have hsize₁ : m₁.size = m.size + 1 := Heap.size_allocate ..
  have hsize₂ : m₂.size = m.size + 2 := (Heap.size_allocate ..).trans (congrArg (· + 1) hsize₁)
  refine ⟨m₂.withHeap (m₂.heap.modify ⟨m.size⟩ linked), rfl, (Heap.size_modify ..).trans hsize₂,
    h₂.revise h.grows fun _ hobject => hobject, ?_⟩
  have hmodified : (⟨m.size⟩ : Ref) = ⟨m.size⟩ ∧ m.size < m₂.heap.objects.size :=
    ⟨rfl, show m.size < m₂.size by omega⟩
  have hfunction : (⟨m.size⟩ : Ref).index ≠ m₁.heap.objects.size :=
    show m.size ≠ m₁.size by omega
  have hobject : (⟨m.size⟩ : Ref).index = m.heap.objects.size := rfl
  rw [Machine.heap_withHeap, Heap.object_modify, if_pos hmodified]
  show (m₂.heap.object ⟨m.size⟩).prototype = _
  rw [Machine.heap_withHeap, Heap.object_allocate, if_neg hfunction, Machine.heap_withHeap,
    Heap.object_allocate, if_pos hobject]
  rfl

/-- Up to its last step, which links the prototype of list iterators, installation only adds
members and new objects; the first new one is the iterator prototype. -/
theorem Machine.exists_populated_install {m : Machine} (hnone : m.extensions = none)
    (hsize : Intrinsic.all.length ≤ m.size) :
    ∃ m' keys, (Run.final (Engine.install m)).heap =
        m'.heap.modify Intrinsic.listIteratorPrototype.ref (fun object =>
          { object with prototype := some ⟨m.size⟩ }) ∧
      m.size < m'.size ∧ m.Populated m.size keys m' ∧
      (∀ r, r.index < m.size → keys r = installedKeys r) ∧
      (m'.heap.object ⟨m.size⟩).prototype = some Intrinsic.objectPrototype.ref := by
  -- the symbol, the iterator prototype with its next method, and the constructor
  let m₁ : Machine := { m with heap := (m.heap.allocateSymbol (some "next")).2 }
  let next := (m.heap.allocateSymbol (some "next")).1
  have hrun₁ : Engine.newSymbol (some "next") m = .ok next m₁ := rfl
  have h₁ : m.Populated m.size (fun _ => []) m₁ := (Machine.Populated.refl m).congr rfl
  obtain ⟨m₂, hrun₂, hsize₂, h₂, hfirst⟩ := h₁.newIterationObject next (.list #[])
  have hsize₁ : m₁.size = m.size := rfl
  rw [hsize₁] at hrun₂ hsize₂ hfirst
  have hbase : m₂.Populated m.size (fun _ => []) m₂ := .refl m₂
  obtain ⟨m₃, hrun₃, hsize₃, h₃⟩ := hbase.newNative "Iterator" 2 .iteratorConstructor
  -- the rest is counted from there, so that it tells what becomes of the iterator prototype
  let x : Extensions := ⟨next, ⟨m.size⟩, ⟨m₂.size⟩⟩
  have hchange : Run.change (fun m => { m with extensions := some x }) m₃ =
      .ok () { m₃ with extensions := some x } := rfl
  have h₄ : m₂.Populated m.size (fun _ => []) { m₃ with extensions := some x } := h₃.congr rfl
  have hprototype : x.iteratorPrototype.index < Machine.size { m₃ with extensions := some x } :=
    show m.size < m₃.size by omega
  obtain ⟨m₅, keys, hrun₅, -, h₅, hkeys⟩ :=
    h₄.addExtensions (by omega) (by omega) hprototype (Nat.le_refl _)
  have hgrows := h₅.grows
  refine ⟨m₅, _, ?_, by omega, h₂.trans h₅, fun r hr => ?_, ?_⟩
  · have hmachine : Run.machine m = .ok m m := rfl
    unfold Engine.install
    rw [Run.bind_ok hmachine]
    simp only [hnone]
    rw [Run.bind_ok hrun₁, Run.bind_ok hrun₂, Run.bind_ok hrun₃, Run.bind_ok hchange,
      Run.bind_ok hrun₅]
    rfl
  · refine hkeys r (by omega) ?_
    rintro rfl
    exact Nat.lt_irrefl _ hr
  · exact (h₅.old ⟨m.size⟩ (show m.size < m₂.size by omega)).prototype.trans hfirst

/-- What installation does to the objects of a machine. -/
structure Machine.Installed (m m' : Machine) : Prop where
  grows : m.size < m'.size
  old : ∀ r, r.index < m.size → ∃ o, (m.heap.object r).Populated m.size (installedKeys r) o ∧
    m'.heap.object r =
      if r = Intrinsic.listIteratorPrototype.ref then { o with prototype := some ⟨m.size⟩ } else o
  added : ∀ r, m.size ≤ r.index → r.index < m'.size → (m'.heap.object r).IsBuiltin
  first : (m'.heap.object ⟨m.size⟩).prototype = some Intrinsic.objectPrototype.ref

theorem Machine.installed {m : Machine} (hnone : m.extensions = none)
    (hsize : Intrinsic.all.length ≤ m.size) : m.Installed (Run.final (Engine.install m)) := by
  obtain ⟨m', keys, hheap, hgrows, h, hkeys, hfirst⟩ := exists_populated_install hnone hsize
  have hlist : Intrinsic.listIteratorPrototype.ref.index < m.size :=
    Nat.lt_of_lt_of_le (by decide) hsize
  have hobject (r : Ref) : (Run.final (Engine.install m)).heap.object r =
      if r = Intrinsic.listIteratorPrototype.ref then
        { m'.heap.object r with prototype := some ⟨m.size⟩ }
      else m'.heap.object r := by
    rw [hheap, Heap.object_modify]
    by_cases hr : r = Intrinsic.listIteratorPrototype.ref
    · rw [if_pos ⟨hr, Nat.lt_trans hlist hgrows⟩, if_pos hr, hr]
    · rw [if_neg fun h => hr h.1, if_neg hr]
  have hnew (r : Ref) (hr : m.size ≤ r.index) :
      (Run.final (Engine.install m)).heap.object r = m'.heap.object r := by
    rw [hobject, if_neg]
    rintro rfl
    exact Nat.not_le.2 hlist hr
  have hsize' : (Run.final (Engine.install m)).size = m'.size := by
    show (Run.final (Engine.install m)).heap.objects.size = m'.heap.objects.size
    rw [hheap, Heap.size_modify]
  refine ⟨hsize' ▸ hgrows, fun r hr => ?_, fun r hr hr' => ?_, ?_⟩
  · exact ⟨m'.heap.object r, hkeys r hr ▸ h.old r hr, hobject r⟩
  · rw [hnew r hr]
    exact h.added r hr (hsize' ▸ hr')
  · rw [hnew ⟨m.size⟩ (Nat.le_refl _)]
    exact hfirst

end ObjectModel
