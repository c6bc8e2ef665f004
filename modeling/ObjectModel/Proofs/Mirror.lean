import ObjectModel.Proofs.Forwarding
import ObjectModel.Proofs.Integrity

/-!
# A forwarding proxy is an image of its object

A proxy made from a handler that forwards `getOwnPropertyDescriptor`, `defineProperty`, `delete`
and `getOwnPropertyNames` answers every sequence of requests as the object does, and the object
ends as if it had been asked itself (`proxy_mirrors_object`).  One thing is told in another way: a
definition that the object refuses is a type error.

Both sides are compared with `Object.respond`, which says what an ordinary object answers to a
request and what becomes of it.
-/

namespace ObjectModel

/-! ## Requests -/

/-- What can be asked of an object. -/
inductive Request where
  | getOwn (k : Key)
  | hasOwn (k : Key)
  | delete (k : Key)
  | ownKeys
  | enumerableOwnKeys
  | define (k : Key) (d : Descriptor)

/-- The request asks for keys. -/
def Request.lists : Request → Bool
  | .ownKeys | .enumerableOwnKeys => true
  | _ => false

inductive Reply where
  | descriptor (d : Option Descriptor)
  | verdict (b : Bool)
  | keys (ks : List Key)
  deriving DecidableEq

/-- How a request ended: with a reply, or with an error of a kind. -/
inductive Ending where
  | gave (reply : Reply)
  | threw (kind : Option ErrorKind)
  deriving DecidableEq

namespace Engine

variable (eng : Engine)

def request (o : Ref) : Request → Run Reply
  | .getOwn k => .descriptor <$> eng.getOwnProperty o k
  | .hasOwn k => .verdict <$> eng.hasOwnProperty o k
  | .delete k => .verdict <$> eng.deleteProperty o k
  | .ownKeys => .keys <$> eng.ownKeys o
  | .enumerableOwnKeys => .keys <$> eng.enumerableOwnKeys o
  | .define k d => .verdict <$> eng.defineOwnProperty o k d

/-- Makes a request and sees how it ends. -/
def observe (o : Ref) (request : Request) : Run Ending := do
  match ← Run.attempt (eng.request o request) with
  | .ok reply => pure (.gave reply)
  | .error v => return .threw (Session.errorKind? (← Run.heap) v)

/-- Makes requests one after the other, also after one that throws. -/
def observeAll (o : Ref) : List Request → Run (List Ending)
  | [] => pure []
  | request :: rest => do
    let ending ← eng.observe o request
    return ending :: (← observeAll o rest)

end Engine

/-- How an image tells what the object tells: a refused definition is a type error. -/
def Request.mirrored : Request → Ending → Ending
  | .define _ _, .gave (.verdict false) => .threw (some .typeError)
  | _, ending => ending

/-! ## What an ordinary object answers -/

/-- The reply of an object, and what it becomes if it changes. -/
def Object.respond (o : Object) : Request → Reply × Option Object
  | .getOwn k => (.descriptor (o.ownDescriptor k), none)
  | .hasOwn k => (.verdict (o.ownDescriptor k).isSome, none)
  | .delete k => (.verdict (o.delete? k).isSome, o.delete? k)
  | .ownKeys => (.keys o.ownKeys, none)
  | .enumerableOwnKeys =>
    (.keys ((o.ownKeys.filter fun k => !k.isSymbol).filter fun k =>
      (o.ownDescriptor k).any Descriptor.isEnumerable), none)
  | .define k d => (.verdict (o.define? k d).isSome, o.define? k d)

/-- The object after a request. -/
def Object.after (o : Object) (request : Request) : Object := (o.respond request).2.getD o

/-- Wherever the requests ask for the keys of the object, an array can hold them. -/
def Object.Listable (o : Object) : List Request → Prop
  | [] => True
  | request :: rest =>
    (request.lists = true → o.ownKeys.length < indexLimit) ∧ (o.after request).Listable rest

instance decidableListable : (o : Object) → (requests : List Request) →
    Decidable (o.Listable requests)
  | _, [] => isTrue trivial
  | o, request :: rest =>
    have := decidableListable (o.after request) rest
    inferInstanceAs (Decidable (_ ∧ _))

/-- The machine after an object may have changed. -/
def Machine.revised (m : Machine) (r : Ref) : Option Object → Machine
  | some o => m.replace r o
  | none => m

section Direct

variable {host : Host} {n : Nat} {m : Machine} {o : Ref}

theorem reviseObject_revised (f : Object → Option Object) :
    Engine.reviseObject o f m =
      .ok (f (m.heap.object o)).isSome (m.revised o (f (m.heap.object o))) := by
  rw [Engine.reviseObject_apply]
  cases f (m.heap.object o) <;> rfl

theorem keepEnumerable_apply (ho : (m.heap.object o).isProxy = false) (ks : List Key) :
    (hostedEngine host (n + 1)).keepEnumerable o ks m =
      .ok (ks.filter fun k => ((m.heap.object o).ownDescriptor k).any Descriptor.isEnumerable)
        m := by
  induction ks with
  | nil => rfl
  | cons k rest ih =>
    simp only [Engine.keepEnumerable, Engine.isOwnEnumerable, Run.bind_apply,
      hosted_getOwnProperty ho, Run.pure_apply, ih, List.filter_cons]

/-- An ordinary object replies by itself. -/
theorem request_apply (ho : (m.heap.object o).Ordinary) (request : Request) :
    (hostedEngine host (n + 1)).request o request m =
      .ok ((m.heap.object o).respond request).1
        (m.revised o ((m.heap.object o).respond request).2) := by
  have hhasOwn (k : Key) : (hostedEngine host (n + 1)).hasOwnProperty o k m =
      .ok ((m.heap.object o).ownDescriptor k).isSome m := by
    have hnone : (hostedEngine host (n + 1)).proxyHasOwn? o k m = .ok none m :=
      Run.kind_bind_of_not_proxy ho.1 _ _
    rw [Engine.hasOwnProperty, Run.bind_ok hnone]
    exact Run.bind_ok (hosted_getOwnProperty ho.1)
  have hmap {α : Type} {x : Run α} {a : α} {m' : Machine} (f : α → Reply)
      (hx : x m = .ok a m') : (f <$> x) m = .ok (f a) m' := by
    rw [map_eq_pure_bind, Run.bind_ok hx]
    rfl
  cases request with
  | getOwn k => exact hmap _ (hosted_getOwnProperty ho.1)
  | hasOwn k => exact hmap _ (hhasOwn k)
  | delete k => exact hmap _ ((hosted_deleteProperty ho).trans (reviseObject_revised _))
  | ownKeys => exact hmap _ (hosted_ownKeys ho.1)
  | enumerableOwnKeys =>
    exact hmap _ ((Run.bind_ok (hosted_ownKeys ho.1)).trans (keepEnumerable_apply ho.1 _))
  | define k d => exact hmap _ ((hosted_defineOwnProperty ho d).trans (reviseObject_revised _))

end Direct

/-! ## What the proxy answers -/

/-- The operations of a handler that is an image of an object. -/
def HandlerOperation.ofImage : List HandlerOperation :=
  [.getOwnPropertyDescriptor, .defineProperty, .delete, .getOwnPropertyNames]

/-- The proxy reflects an object whose keys are canonical and whose accessor functions can be
called. -/
structure Machine.Mirrors (m : Machine) (host : Host) (hd : Handler) (l : List Ref)
    (object p : Ref) : Prop where
  reflects : m.Reflects host hd HandlerOperation.ofImage l object p
  callable : ∀ k d, (m.heap.object object).ownDescriptor k = some d → d.Callable m.heap
  canonical : ∀ k ∈ (m.heap.object object).ownKeys, k.Canonical

namespace Machine.Mirrors

variable {m m' : Machine} {host : Host} {hd : Handler} {l : List Ref} {object p : Ref} {n : Nat}
  {k : Key}

theorem sayable (h : m.Mirrors host hd l object p) {d : Descriptor}
    (hd : (m.heap.object object).ownDescriptor k = some d) : d.Sayable m.heap :=
  ⟨h.callable k d hd, (Object.ownDescriptor_complete hd).2⟩

theorem grown (h : m.Mirrors host hd l object p) (hgrown : m.Grown m') :
    m'.Mirrors host hd l object p where
  reflects := h.reflects.grown hgrown
  callable k d hd f hf := by
    rw [hgrown.object h.reflects.live] at hd
    exact hgrown.callable? (h.callable k d hd f hf)
  canonical := by
    rw [hgrown.object h.reflects.live]
    exact h.canonical

variable (h : m.Mirrors host hd l object p)

include h

theorem adds_ownKeys (hcount : (m.heap.object object).ownKeys.length < indexLimit) :
    Run.Adds m ((hostedEngine host (n + 3)).ownKeys p) (m.heap.object object).ownKeys := by
  have hop : HandlerOperation.getOwnPropertyNames ∈ HandlerOperation.ofImage := by decide
  obtain ⟨f, hf, hcall⟩ := h.reflects.forward (n := n + 1) hop rfl
  refine .congr ?_ (h.reflects.answers _).ownKeys
  have hkeys := h.reflects.forwards.absent .keys (by decide)
  simp only [Engine.answerOwnKeys, Engine.consult, hkeys, hf]
  let vs := (m.heap.object object).ownKeys.map Key.toValue
  have hlength : vs.length < indexLimit := by rwa [List.length_map]
  have hrun : (hostedEngine host (n + 2)).call f (.object hd.object) [] m =
      .ok (.object ⟨m.size⟩) (m.withHeap (m.heap.allocate (.listing vs)).2) := by
    rw [hcall m (.refl m), Engine.forwardNames, Run.bind_ok (hosted_ownKeys h.reflects.ordinary.1)]
    exact Run.bind_ok (newArray_apply (Nat.le_of_lt hlength) m)
  have hobject : (m.heap.allocate (.listing vs)).2.object ⟨m.size⟩ = .listing vs :=
    m.heap.object_allocate_self _
  have hlist : (hostedEngine host (n + 2)).listFromArrayLike (.object ⟨m.size⟩)
      (m.withHeap (m.heap.allocate (.listing vs)).2) = .ok vs _ :=
    hosted_listFromArrayLike hobject (by omega) hlength
  refine ⟨_, ?_, .allocate m (.listing vs)⟩
  rw [Run.bind_ok (Run.bind_ok hrun |>.trans hlist), Engine.toPropertyKeys_toValue h.canonical]
  rfl

/-- The proxy deletes from the object. -/
theorem deleteProperty_apply (hk : k.Canonical) :
    (hostedEngine host (n + 3)).deleteProperty p k m =
      .ok ((m.heap.object object).delete? k).isSome
        (m.revised object ((m.heap.object object).delete? k)) := by
  have hop : HandlerOperation.delete ∈ HandlerOperation.ofImage := by decide
  obtain ⟨f, hf, hcall⟩ := h.reflects.forward (n := n + 1) hop rfl
  refine ((h.reflects.answers _).delete k).trans ?_
  simp only [Engine.answerDelete, Engine.consult, hf]
  have hdelete : (hostedEngine host (n + 1)).deleteProperty object k m = _ :=
    (hosted_deleteProperty h.reflects.ordinary).trans (reviseObject_revised _)
  have hrun : (hostedEngine host (n + 2)).call f (.object hd.object) [k.toValue] m =
      .ok (.bool ((m.heap.object object).delete? k).isSome)
        (m.revised object ((m.heap.object object).delete? k)) := by
    rw [hcall m (.refl m), Engine.forwardDelete, List.getD_cons_zero,
      Engine.toPropertyKey_toValue hk, pure_bind]
    exact Run.bind_ok hdelete
  rw [map_eq_pure_bind, Run.bind_ok hrun]
  rfl

variable (hn : l.length ≤ n)

include hn

theorem adds_getOwn (hk : k.Canonical) :
    Run.Adds m ((hostedEngine host (n + 3)).getOwnProperty p k)
      ((m.heap.object object).ownDescriptor k) := by
  obtain ⟨f, hf, hdescribes⟩ := h.reflects.describes (by decide) hn hk
  refine .congr ?_ ((h.reflects.answers _).getOwn k)
  have hcomplete : ((m.heap.object object).ownDescriptor k).map Descriptor.complete =
      (m.heap.object object).ownDescriptor k := by
    cases hd : (m.heap.object object).ownDescriptor k with
    | none => rfl
    | some d => rw [Option.map_some, (Object.ownDescriptor_complete hd).1]
  simp only [Engine.answerGetOwn, Engine.consult, hf]
  have hdescribed := (hdescribes (.object hd.object)).described fun d => h.sayable
  have hadds := hdescribed.map (Option.map Descriptor.complete)
  rwa [hcomplete] at hadds

theorem adds_hasOwn (hk : k.Canonical) :
    Run.Adds m ((hostedEngine host (n + 3)).hasOwnProperty p k)
      ((m.heap.object object).ownDescriptor k).isSome := by
  obtain ⟨f, hf, hdescribes⟩ := h.reflects.describes (n := n + 1) (by decide) (by omega) hk
  refine .congr ?_ ((h.reflects.answers _).hasOwn k)
  have hhasOwn := h.reflects.forwards.absent .hasOwn (by decide)
  simp only [Engine.answerHasOwn, Engine.consult, hhasOwn, hf]
  exact (hdescribes (.object hd.object)).isSome

/-- The enumerable ones among canonical keys. -/
theorem adds_keepEnumerable {ks : List Key} (hks : ∀ k ∈ ks, k.Canonical) :
    Run.Adds m ((hostedEngine host (n + 3)).keepEnumerable p ks)
      (ks.filter fun k => ((m.heap.object object).ownDescriptor k).any Descriptor.isEnumerable) := by
  induction ks generalizing m with
  | nil => exact .of_same rfl
  | cons k rest ih =>
    have hown := h.adds_getOwn hn (hks k List.mem_cons_self)
    refine (hown.map (Option.any Descriptor.isEnumerable)).bind fun m₁ hgrown => ?_
    have hrest := ih (h.grown hgrown) fun k hk => hks k (List.mem_cons_of_mem _ hk)
    rw [hgrown.object h.reflects.live] at hrest
    refine hrest.bind fun m₂ _ => .of_same ?_
    rw [List.filter_cons]
    rfl

theorem adds_enumerableOwnKeys (hcount : (m.heap.object object).ownKeys.length < indexLimit) :
    Run.Adds m ((hostedEngine host (n + 3)).enumerableOwnKeys p)
      (((m.heap.object object).ownKeys.filter fun k => !k.isSymbol).filter fun k =>
        ((m.heap.object object).ownDescriptor k).any Descriptor.isEnumerable) := by
  refine (h.adds_ownKeys hcount).bind fun m₁ hgrown => ?_
  rw [← hgrown.object h.reflects.live] at hcount ⊢
  exact (h.grown hgrown).adds_keepEnumerable hn fun k hk =>
    (h.grown hgrown).canonical k (List.mem_of_mem_filter hk)

/-- The proxy defines on the object. -/
theorem defines (hk : k.Canonical) {d : Descriptor} (hsay : d.Sayable m.heap) :
    m.Defines object k d ((hostedEngine host (n + 4)).defineOwnProperty p k d) true := by
  obtain ⟨f, hf, hdefines⟩ := h.reflects.defines (n := n + 1) (by decide) (by omega) hk hsay
  refine .congr ?_ ((h.reflects.answers _).define k d)
  simp only [Engine.answerDefine, Engine.consult, hf]
  exact hdefines (.object hd.object)

end Machine.Mirrors

/-! ## Requests of the proxy -/

/-- The request can be told to the proxy: its keys are canonical and its descriptor can be
described, and what it defines leaves the prototype of objects without the names of fields. -/
def Request.Allowed (h : Heap) (l : List Ref) (object : Ref) : Request → Prop
  | .getOwn k | .hasOwn k | .delete k => k.Canonical
  | .ownKeys | .enumerableOwnKeys => True
  | .define k d => k.Canonical ∧ d.Sayable h ∧ (object ∈ l → k ∉ Descriptor.fieldNames)

theorem Request.Allowed.mono {h h' : Heap} {l : List Ref} {object : Ref} {request : Request}
    (hrequest : request.Allowed h l object)
    (hcallable : ∀ f, h.callable? (.object f) = some f → h'.callable? (.object f) = some f) :
    request.Allowed h' l object := by
  cases request with
  | define k d =>
    obtain ⟨hk, hsay, hfields⟩ := hrequest
    exact ⟨hk, ⟨fun f hf => hcallable f (hsay.callable f hf), hsay.single⟩, hfields⟩
  | _ => exact hrequest

section Observing

variable {eng : Engine} {o : Ref} {request : Request} {m m' : Machine}

theorem observe_gave {reply : Reply} (h : eng.request o request m = .ok reply m') :
    eng.observe o request m = .ok (.gave reply) m' := by
  have hattempt : Run.attempt (eng.request o request) m = .ok (.ok reply) m' := by
    rw [Run.attempt, h]
  exact Run.bind_ok hattempt

theorem observe_threw {v : Value} (h : eng.request o request m = .error (.thrown v) m') :
    eng.observe o request m = .ok (.threw (Session.errorKind? m'.heap v)) m' := by
  have hattempt : Run.attempt (eng.request o request) m = .ok (.error v) m' := by
    rw [Run.attempt, h]
  exact Run.bind_ok hattempt

end Observing

/-! ## Changes of the object -/

namespace Property

variable {h : Heap} {d : Descriptor} {p : Property}

/-- The functions of an accessor can be called if those can that it takes over. -/
theorem callable_accessor {g s : Option Ref} {e c : Bool}
    (hget : ∀ f, g = some f → h.callable? (.object f) = some f)
    (hset : ∀ f, s = some f → h.callable? (.object f) = some f) :
    (Property.mk (.accessor g s) e c).toDescriptor.Callable h := by
  rintro f (hf | hf)
  · exact hget f (Option.some.inj hf)
  · exact hset f (Option.some.inj hf)

theorem callable_data {v : Value} {w e c : Bool} :
    (Property.mk (.data v w) e c).toDescriptor.Callable h := by
  rintro f (hf | hf) <;> cases hf

/-- What is mentioned can be called, or else what stands there already. -/
theorem callable_getD {f g : Option Ref} {o : Option (Option Ref)}
    (ho : ∀ r, o = some (some r) → h.callable? (.object r) = some r)
    (hg : ∀ r, g = some r → h.callable? (.object r) = some r) (hf : o.getD g = f) :
    ∀ r, f = some r → h.callable? (.object r) = some r := by
  rintro r rfl
  cases o with
  | none => exact hg r hf
  | some o =>
    have hf : o = some r := hf
    exact ho r (by rw [hf])

theorem callable_revise {extensible : Bool} {current : Option Property}
    (hcurrent : ∀ p, current = some p → p.toDescriptor.Callable h) (hd : d.Callable h)
    (hrevise : revise extensible current d = some p) : p.toDescriptor.Callable h := by
  have hget (r : Ref) (hr : d.get = some (some r)) := hd r (.inl hr)
  have hset (r : Ref) (hr : d.set = some (some r)) := hd r (.inr hr)
  have hnone (r : Ref) (hr : (none : Option Ref) = some r) :
      h.callable? (.object r) = some r := by cases hr
  have hnew : (ofDescriptor d).toDescriptor.Callable h := by
    unfold ofDescriptor
    split
    · exact callable_accessor (callable_getD hget hnone rfl) (callable_getD hset hnone rfl)
    · exact callable_data
  cases current with
  | none =>
    simp only [revise] at hrevise
    split at hrevise
    · cases hrevise
      exact hnew
    · cases hrevise
  | some q =>
    have hq := hcurrent q rfl
    simp only [revise] at hrevise
    split at hrevise
    · cases hrevise
      obtain ⟨content, e, c⟩ := q
      cases content with
      | data v w =>
        simp only [merge]
        split
        · exact callable_accessor (callable_getD hget hnone rfl) (callable_getD hset hnone rfl)
        · exact callable_data
      | accessor g s =>
        simp only [merge]
        split
        · exact callable_data
        · refine callable_accessor (callable_getD hget (fun r hr => ?_) rfl)
            (callable_getD hset (fun r hr => ?_) rfl)
          · exact hq r (.inl (congrArg some hr))
          · exact hq r (.inr (congrArg some hr))
    · cases hrevise

end Property

/-- A change of an object by a request keeps its properties or revises one by its definition. -/
theorem Object.exists_of_respond {o o' : Object} {request : Request}
    (h : (o.respond request).2 = some o') :
    ∃ t : PropertyTable, o' = { o with properties := t } ∧ ∀ k p, t.find? k = some p →
      o.properties.find? k = some p ∨ ∃ d, request = .define k d ∧
        Property.revise o.extensible (o.properties.find? k) d = some p := by
  cases request with
  | delete k =>
    obtain ⟨t, rfl, ht⟩ := exists_of_delete? h
    refine ⟨t, rfl, fun k' p hp => .inl ?_⟩
    rcases ht with rfl | rfl
    · exact hp
    · rw [PropertyTable.find?_remove] at hp
      split at hp
      · cases hp
      · exact hp
  | define k d =>
    obtain ⟨q, hq, rfl⟩ := exists_of_define? h
    refine ⟨_, rfl, fun k' p hp => ?_⟩
    rw [Slots.find?_insert] at hp
    split at hp
    · next hk =>
      cases hp
      exact .inr ⟨d, by rw [hk], by rw [hk, hq]⟩
    · exact .inl hp
  | _ => cases h

/-- **The proxy goes on mirroring the object after a request.** -/
theorem Machine.Mirrors.replace {m : Machine} {host : Host} {hd : Handler} {l : List Ref}
    {object p : Ref} {request : Request} (h : m.Mirrors host hd l object p)
    (hrequest : request.Allowed m.heap l object) {o : Object}
    (ho : ((m.heap.object object).respond request).2 = some o) :
    (m.replace object o).Mirrors host hd l object p := by
  obtain ⟨t, rfl, ht⟩ := Object.exists_of_respond ho
  have hordinary := h.reflects.ordinary
  have hordinary' : Object.Ordinary { m.heap.object object with properties := t } :=
    hordinary.of_kind rfl
  -- a property of the new object was there before or was defined by the request
  have hown {k : Key} {d : Descriptor}
      (hd : Object.ownDescriptor { m.heap.object object with properties := t } k = some d) :
      (m.heap.object object).ownDescriptor k = some d ∨ ∃ e, request = .define k e ∧
        d.Callable m.heap := by
    rw [hordinary'.ownDescriptor] at hd
    obtain ⟨q, hq, rfl⟩ := Option.map_eq_some_iff.1 hd
    rcases ht k q hq with hq | ⟨e, rfl, hrevise⟩
    · left
      rw [hordinary.ownDescriptor, hq]
      rfl
    · refine .inr ⟨e, rfl, Property.callable_revise (fun q hq => ?_) hrequest.2.1.callable hrevise⟩
      refine h.callable k _ ?_
      rw [hordinary.ownDescriptor, hq]
      rfl
  refine ⟨h.reflects.replace rfl rfl fun hmem k hk => ?_, fun k d hd f hf => ?_, fun k hk => ?_⟩
  · rw [Option.eq_none_iff_forall_ne_some]
    intro d hd
    rcases hown hd with hold | ⟨e, rfl, -⟩
    · have habsent := h.reflects.free.absent k hk
      rw [Heap.firstOwn, List.findSome?_eq_none_iff] at habsent
      rw [habsent object hmem] at hold
      cases hold
    · exact hrequest.2.2 hmem hk
  · rw [object_replace h.reflects.live, if_pos rfl] at hd
    refine callable?_replace (o := { m.heap.object object with properties := t }) h.reflects.live
      rfl ?_
    rcases hown hd with hold | ⟨e, -, hcallable⟩
    · exact h.callable k d hold f hf
    · exact hcallable f hf
  · rw [object_replace h.reflects.live, if_pos rfl, Object.mem_ownKeys] at hk
    obtain ⟨d, hd⟩ := Option.isSome_iff_exists.1 hk
    rcases hown hd with hold | ⟨e, rfl, -⟩
    · refine h.canonical k (Object.mem_ownKeys.2 ?_)
      rw [hold]
      rfl
    · exact hrequest.1

section Mirroring

variable {m m' : Machine} {host : Host} {hd : Handler} {l : List Ref} {object p : Ref} {n : Nat}
  {request : Request}

/-- **The proxy replies as the object would, which is changed as if it had been asked.** -/
theorem Machine.Mirrors.observe (h : m.Mirrors host hd l object p) (hn : l.length ≤ n)
    (hcount : request.lists = true → (m.heap.object object).ownKeys.length < indexLimit)
    (hrequest : request.Allowed m.heap l object) :
    ∃ m', (hostedEngine host (n + 4)).observe p request m =
        .ok (request.mirrored (.gave ((m.heap.object object).respond request).1)) m' ∧
      (m.revised object ((m.heap.object object).respond request).2).Grown m' := by
  have hn' : l.length ≤ n + 1 := by omega
  have hadds {α : Type} {x : Run α} {a : α} (f : α → Reply) (hx : Run.Adds m x a)
      (hf : (hostedEngine host (n + 4)).request p request = f <$> x) :
      ∃ m', (hostedEngine host (n + 4)).observe p request m = .ok (.gave (f a)) m' ∧ m.Grown m' := by
    obtain ⟨m', hrun, hgrown⟩ := hx.map f
    exact ⟨m', observe_gave (by rw [hf, hrun]), hgrown⟩
  cases request with
  | getOwn k => exact hadds .descriptor (h.adds_getOwn hn' hrequest) rfl
  | hasOwn k => exact hadds .verdict (h.adds_hasOwn hn' hrequest) rfl
  | ownKeys => exact hadds .keys (h.adds_ownKeys (hcount rfl)) rfl
  | enumerableOwnKeys => exact hadds .keys (h.adds_enumerableOwnKeys hn' (hcount rfl)) rfl
  | delete k =>
    have hdelete : (hostedEngine host (n + 4)).deleteProperty p k m = _ :=
      h.deleteProperty_apply hrequest
    refine ⟨_, observe_gave ?_, .refl _⟩
    rw [Engine.request, map_eq_pure_bind, Run.bind_ok hdelete]
    rfl
  | define k d =>
    obtain ⟨hk, hsay, -⟩ := hrequest
    rcases h.defines hn hk hsay with
      ⟨o, m', hdefine, hrun, hgrown⟩ | ⟨v, m', hdefine, hrun, hgrown, hkind⟩
    · refine ⟨m', ?_, ?_⟩
      · simp only [Object.respond, hdefine, Option.isSome_some, Request.mirrored]
        refine observe_gave ?_
        rw [Engine.request, map_eq_pure_bind, Run.bind_ok hrun]
        rfl
      · simp only [Object.respond, hdefine]
        exact hgrown
    · refine ⟨m', ?_, ?_⟩
      · simp only [Object.respond, hdefine, Option.isSome_none, Request.mirrored]
        rw [← hkind]
        refine observe_threw ?_
        rw [Engine.request, map_eq_pure_bind, Run.bind_error hrun]
      · simp only [Object.respond, hdefine]
        exact hgrown

/-- The same change keeps one machine grown from another. -/
theorem Machine.Grown.revised (hgrown : m.Grown m') (hlive : object.index < m.size)
    (o : Option Object) : (m.revised object o).Grown (m'.revised object o) := by
  cases o with
  | none => exact hgrown
  | some o => exact hgrown.modify hlive _

/-- What is needed for the requests to come. -/
structure Machine.Awaits (m : Machine) (host : Host) (hd : Handler) (l : List Ref) (object p : Ref)
    (requests : List Request) : Prop where
  mirrors : m.Mirrors host hd l object p
  allowed : ∀ request ∈ requests, request.Allowed m.heap l object
  listable : (m.heap.object object).Listable requests

theorem Machine.Awaits.next {requests : List Request}
    (h : m.Awaits host hd l object p (request :: requests)) :
    (m.revised object ((m.heap.object object).respond request).2).Awaits host hd l object p
      requests := by
  have hlistable := h.listable.2
  unfold Object.after at hlistable
  cases ho : ((m.heap.object object).respond request).2 with
  | none =>
    rw [ho] at hlistable
    exact ⟨h.mirrors, fun r hr => h.allowed r (List.mem_cons_of_mem _ hr), hlistable⟩
  | some o =>
    have hlive := h.mirrors.reflects.live
    have hkind : o.kind = (m.heap.object object).kind := by
      obtain ⟨t, rfl, -⟩ := Object.exists_of_respond ho
      rfl
    rw [ho] at hlistable
    refine ⟨h.mirrors.replace (h.allowed _ List.mem_cons_self) ho, fun r hr => ?_, ?_⟩
    · exact (h.allowed r (List.mem_cons_of_mem _ hr)).mono fun _ => callable?_replace hlive hkind
    · show ((m.replace object o).heap.object object).Listable requests
      rw [object_replace hlive, if_pos rfl]
      exact hlistable

/-- **Every sequence of requests ends on the proxy as on the object.** -/
theorem Machine.Awaits.observeAll {requests : List Request}
    (h : m.Awaits host hd l object p requests) (hn : l.length ≤ n) (hgrown : m.Grown m') :
    ∃ endings m₁ m₂, (hostedEngine host (n + 4)).observeAll object requests m = .ok endings m₁ ∧
      (hostedEngine host (n + 4)).observeAll p requests m' =
        .ok (List.zipWith Request.mirrored requests endings) m₂ ∧ m₁.Grown m₂ := by
  induction requests generalizing m m' with
  | nil => exact ⟨[], m, m', rfl, rfl, hgrown⟩
  | cons request rest ih =>
    have hlive := h.mirrors.reflects.live
    have hobject := hgrown.object hlive
    -- the object is asked
    have hdirect : (hostedEngine host (n + 4)).observe object request m = _ :=
      observe_gave (request_apply h.mirrors.reflects.ordinary request)
    -- the proxy is asked, where there are further objects
    have hallowed := (h.allowed request List.mem_cons_self).mono fun _ => hgrown.callable?
    have hcount := h.listable.1
    rw [← hobject] at hcount
    obtain ⟨m₃, himage, hgrown₃⟩ := (h.mirrors.grown hgrown).observe hn hcount hallowed
    rw [hobject] at himage hgrown₃
    obtain ⟨endings, m₁, m₂, hrest, hrest', hgrown'⟩ :=
      ih h.next ((hgrown.revised hlive _).trans hgrown₃)
    refine ⟨.gave ((m.heap.object object).respond request).1 :: endings, m₁, m₂, ?_, ?_, hgrown'⟩
    · rw [Engine.observeAll, Run.bind_ok hdirect, Run.bind_ok hrest]
      rfl
    · rw [Engine.observeAll, Run.bind_ok himage, Run.bind_ok hrest']
      rfl

end Mirroring

/-- **A forwarding proxy is an image of its object.**  A proxy is made from every handler that
forwards the four operations to an ordinary object, and adds only objects and events.  Then every
sequence of requests ends on the proxy as it does on the object, but that a refused definition is a
type error, and both leave the same machine, further objects and events apart.

The accessor functions of the object can be called, or they are undefined; an object on the chain
of the prototype of objects gets no property named like a field of a description; and an array can
hold the keys of the object where they are asked for. -/
theorem proxy_mirrors_object {host : Host} {n : Nat} {m : Machine} {handler object : Ref}
    {chain l : List Ref} (hforwarding :
      m.heap.Forwarding host handler object chain HandlerOperation.ofImage)
    (hfree : m.heap.FieldFree l) (hlive : object.index < m.size)
    (hordinary : (m.heap.object object).Ordinary)
    (hcallable : ∀ k d, (m.heap.object object).ownDescriptor k = some d → d.Callable m.heap)
    (hcanonical : ∀ k ∈ (m.heap.object object).ownKeys, k.Canonical)
    (hn : chain.length < n ∧ l.length + 4 ≤ n) (proto : Option Ref) :
    ∃ p m', (hostedEngine host n).proxyCreate (.object handler) (.ofRef? proto) m = .ok p m' ∧
      m.Grown m' ∧ ∀ requests : List Request,
        (∀ request ∈ requests, request.Allowed m.heap l object) →
          (m.heap.object object).Listable requests →
            ∃ endings m₁ m₂, (hostedEngine host n).observeAll object requests m' = .ok endings m₁ ∧
              (hostedEngine host n).observeAll p requests m' =
                .ok (List.zipWith Request.mirrored requests endings) m₂ ∧ m₁.Grown m₂ := by
  obtain ⟨p, m', target, hd, hcreate, hgrown, hkind, hforwards⟩ :=
    hosted_proxyCreate hforwarding hn.1 proto
  have hobject := hgrown.object hlive
  have hmirrors : m'.Mirrors host hd l object p := by
    refine ⟨⟨⟨target, none, hkind⟩, hforwards, ?_, ?_, hgrown.fieldFree hfree⟩,
      fun k d hd f hf => ?_, ?_⟩
    · exact Nat.lt_of_lt_of_le hlive hgrown.size_le
    · rw [hobject]
      exact hordinary
    · rw [hobject] at hd
      exact hgrown.callable? (hcallable k d hd f hf)
    · rw [hobject]
      exact hcanonical
  refine ⟨p, m', hcreate, hgrown, fun requests hallowed hlistable => ?_⟩
  obtain ⟨n, rfl⟩ : ∃ n', n = n' + 4 := ⟨n - 4, by omega⟩
  refine Machine.Awaits.observeAll ⟨hmirrors, fun r hr => ?_, ?_⟩ (by omega) (.refl m')
  · exact (hallowed r hr).mono fun _ => hgrown.callable?
  · rw [hobject]
    exact hlistable

/-! ### A closed object behind a handler -/

/-- An object that takes no properties, with a getter. -/
def Object.closedTarget (getter : Ref) : Object :=
  { Object.new none .ordinary with
    extensible := false
    properties := (PropertyTable.empty.insert (.index 0) (.data (.text "a") true true true)).insert
      "x" ⟨.accessor (some getter) none, true, true⟩ }

/-- The realm with a handler that forwards to such an object; the handler stands at place 46, the
object after it, and then the functions of the handler. -/
def Machine.closedTarget (getter : Ref) : Machine :=
  (Session.initialMachine ⟨true, false⟩).withForwarder HandlerOperation.ofImage
    (.closedTarget getter)

def Host.closedTarget : Host := .ofForwarder 46 HandlerOperation.ofImage

/-- The handler at place 46 forwards to the closed object after it. -/
theorem Machine.forwarding_closedTarget (getter : Ref) :
    (Machine.closedTarget getter).heap.Forwarding Host.closedTarget ⟨46⟩ ⟨47⟩ [⟨46⟩]
        HandlerOperation.ofImage ∧
      (Machine.closedTarget getter).heap.FieldFree [Intrinsic.objectPrototype.ref] ∧
      (Machine.closedTarget getter).heap.object ⟨47⟩ = .closedTarget getter ∧
      (Machine.closedTarget getter).heap.callable? (.object ⟨48⟩) = some ⟨48⟩ := by
  have hsize : (Session.initialMachine ⟨true, false⟩).size = 46 := by decide +kernel
  have hfree := fieldFree_initialMachine ⟨true, false⟩
  unfold Machine.closedTarget
  -- from here on the realm is not evaluated any more
  generalize Session.initialMachine ⟨true, false⟩ = m at *
  have hforwarding :=
    m.forwarding_withForwarder HandlerOperation.ofImage (.closedTarget getter) (by decide)
  have hobject := m.object_withForwarder_object HandlerOperation.ofImage (.closedTarget getter)
  have hfunction := m.object_withForwarder_function HandlerOperation.ofImage (.closedTarget getter)
    (i := 0) (by decide)
  rw [hsize] at hforwarding hobject hfunction
  exact ⟨hforwarding, (m.grown_withForwarder _ _).fieldFree hfree, hobject,
    Heap.callable?_function (congrArg Object.kind hfunction)⟩

theorem Object.ownDescriptor_closedTarget {getter : Ref} {k : Key} {d : Descriptor}
    (hd : (closedTarget getter).ownDescriptor k = some d) :
    (k = .index 0 ∧ d.get = none ∨ k = "x" ∧ d.get = some (some getter)) ∧
      (d.set = none ∨ d.set = some none) := by
  have hordinary : (closedTarget getter).Ordinary := ⟨rfl, rfl⟩
  rw [hordinary.ownDescriptor] at hd
  simp only [closedTarget, Slots.find?_insert] at hd
  split at hd
  · next hk =>
    cases hd
    exact ⟨.inr ⟨hk, rfl⟩, .inr rfl⟩
  · split at hd
    · next hk =>
      cases hd
      exact ⟨.inl ⟨hk, rfl⟩, .inl rfl⟩
    · rw [PropertyTable.empty, Slots.find?_empty] at hd
      cases hd

/-- Requests of a closed object: one is refused, three change it. -/
def Request.ofGated : List Request :=
  [.getOwn "x", .define "y" (.plain .null), .define "x" { enumerable := some false },
    .delete (.index 0), .hasOwn (.index 0), .ownKeys, .enumerableOwnKeys]

/-- How the requests end on the object. -/
def Ending.ofGated (getter : Ref) : List Ending :=
  [.gave (.descriptor (some
      { get := some (some getter), set := some none, enumerable := some true
        configurable := some true })),
    .gave (.verdict false), .gave (.verdict true), .gave (.verdict true), .gave (.verdict false),
    .gave (.keys ["x"]), .gave (.keys [])]

/-- The getter is told, the refused definition is a type error, and the changes are seen. -/
theorem proxy_mirrors_closedTarget :
    ∃ p m' m₁ m₂, (hostedEngine Host.closedTarget 12).proxyCreate (.object ⟨46⟩) (.ofRef? none)
        (Machine.closedTarget ⟨48⟩) = .ok p m' ∧
      (hostedEngine Host.closedTarget 12).observeAll ⟨47⟩ Request.ofGated m' =
        .ok (Ending.ofGated ⟨48⟩) m₁ ∧
      (hostedEngine Host.closedTarget 12).observeAll p Request.ofGated m' =
        .ok ((Ending.ofGated ⟨48⟩).set 1 (.threw (some .typeError))) m₂ ∧
      m₁.Grown m₂ := by
  obtain ⟨hforwarding, hfree, hobject, hgetter⟩ := Machine.forwarding_closedTarget ⟨48⟩
  have hlive : 47 < (Machine.closedTarget ⟨48⟩).size := by decide +kernel
  have hendings : Run.given? ((hostedEngine Host.closedTarget 12).observeAll ⟨47⟩ Request.ofGated
      (Run.final ((hostedEngine Host.closedTarget 12).proxyCreate (.object ⟨46⟩) (.ofRef? none)
        (Machine.closedTarget ⟨48⟩)))) = some (Ending.ofGated ⟨48⟩) := by decide +kernel
  -- from here on the machine is not evaluated any more
  generalize Machine.closedTarget ⟨48⟩ = m at *
  have h0 : (Key.index 0).Canonical := show 0 < indexLimit by decide
  have hx : Key.Canonical "x" := show Text.arrayIndex? "x" = none by decide
  have hy : Key.Canonical "y" := show Text.arrayIndex? "y" = none by decide
  have hordinary : (m.heap.object ⟨47⟩).Ordinary := by
    rw [hobject]
    exact ⟨rfl, rfl⟩
  have hcallable (k : Key) (d : Descriptor) (hd : (m.heap.object ⟨47⟩).ownDescriptor k = some d) :
      d.Callable m.heap := by
    rw [hobject] at hd
    obtain ⟨hget, hset⟩ := Object.ownDescriptor_closedTarget hd
    rintro f (hf | hf)
    · rcases hget with ⟨-, hnone⟩ | ⟨-, hsome⟩
      · rw [hnone] at hf
        cases hf
      · rw [hsome] at hf
        cases hf
        exact hgetter
    · rcases hset with hnone | hnone <;> rw [hnone] at hf <;> cases hf
  have hcanonical (k : Key) (hk : k ∈ (m.heap.object ⟨47⟩).ownKeys) : k.Canonical := by
    rw [hobject, Object.mem_ownKeys] at hk
    obtain ⟨d, hd⟩ := Option.isSome_iff_exists.1 hk
    rcases (Object.ownDescriptor_closedTarget hd).1 with ⟨rfl, -⟩ | ⟨rfl, -⟩
    · exact h0
    · exact hx
  obtain ⟨p, m', hcreate, -, hmirrors⟩ := proxy_mirrors_object hforwarding hfree hlive hordinary
    hcallable hcanonical (n := 12) (by decide) none
  have hdefine {k : Key} {d : Descriptor} (hk : k.Canonical) (hget : d.get = none)
      (hset : d.set = none) :
      (Request.define k d).Allowed m.heap [Intrinsic.objectPrototype.ref] ⟨47⟩ := by
    refine ⟨hk, ⟨?_, by simp [Descriptor.isAccessor, hget, hset]⟩, fun hmem => ?_⟩
    · rintro f (hf | hf) <;> simp_all
    · exact absurd hmem (by decide)
  have hallowed : ∀ request ∈ Request.ofGated,
      request.Allowed m.heap [Intrinsic.objectPrototype.ref] ⟨47⟩ := by
    simp only [Request.ofGated, List.forall_mem_cons]
    exact ⟨hx, hdefine hy rfl rfl, hdefine hx rfl rfl, h0, h0, trivial, trivial,
      List.forall_mem_nil _⟩
  have hlistable : (m.heap.object ⟨47⟩).Listable Request.ofGated := by
    rw [hobject]
    decide +kernel
  have htold : List.zipWith Request.mirrored Request.ofGated (Ending.ofGated ⟨48⟩) =
      (Ending.ofGated ⟨48⟩).set 1 (.threw (some .typeError)) := by decide +kernel
  obtain ⟨endings, m₁, m₂, hdirect, himage, hgrown⟩ := hmirrors Request.ofGated hallowed hlistable
  rw [hcreate] at hendings
  have hsame : Run.given? ((hostedEngine Host.closedTarget 12).observeAll ⟨47⟩ Request.ofGated m') =
      some (Ending.ofGated ⟨48⟩) := hendings
  rw [hdirect] at hsame
  cases hsame
  rw [htold] at himage
  exact ⟨p, m', m₁, m₂, hcreate, hdirect, himage, hgrown⟩

/-- A getter that cannot be called is a property of the object; the proxy throws instead of telling
it. -/
theorem uncallable_getter_not_mirrored :
    (Machine.closedTarget ⟨46⟩).heap.Forwarding Host.closedTarget ⟨46⟩ ⟨47⟩ [⟨46⟩]
        HandlerOperation.ofImage ∧
      (Machine.closedTarget ⟨46⟩).heap.FieldFree [Intrinsic.objectPrototype.ref] ∧
      ((Machine.closedTarget ⟨46⟩).heap.object ⟨47⟩).Ordinary ∧
      ∃ p m' m₁ m₂, (hostedEngine Host.closedTarget 12).proxyCreate (.object ⟨46⟩) (.ofRef? none)
          (Machine.closedTarget ⟨46⟩) = .ok p m' ∧
        (hostedEngine Host.closedTarget 12).observe ⟨47⟩ (.getOwn "x") m' =
          .ok (.gave (.descriptor (some
            { get := some (some ⟨46⟩), set := some none, enumerable := some true
              configurable := some true }))) m₁ ∧
        (hostedEngine Host.closedTarget 12).observe p (.getOwn "x") m' =
          .ok (.threw (some .typeError)) m₂ := by
  obtain ⟨hforwarding, hfree, hobject, -⟩ := Machine.forwarding_closedTarget ⟨46⟩
  have hcreate : Run.given? ((hostedEngine Host.closedTarget 12).proxyCreate (.object ⟨46⟩)
      (.ofRef? none) (Machine.closedTarget ⟨46⟩)) = some ⟨53⟩ := by decide +kernel
  have hdirect : Run.given? ((hostedEngine Host.closedTarget 12).observe ⟨47⟩ (.getOwn "x")
      (Run.final ((hostedEngine Host.closedTarget 12).proxyCreate (.object ⟨46⟩) (.ofRef? none)
        (Machine.closedTarget ⟨46⟩)))) = some (.gave (.descriptor (some
          { get := some (some ⟨46⟩), set := some none, enumerable := some true
            configurable := some true }))) := by decide +kernel
  have himage : Run.given? ((hostedEngine Host.closedTarget 12).observe ⟨53⟩ (.getOwn "x")
      (Run.final ((hostedEngine Host.closedTarget 12).proxyCreate (.object ⟨46⟩) (.ofRef? none)
        (Machine.closedTarget ⟨46⟩)))) = some (.threw (some .typeError)) := by decide +kernel
  -- from here on the machine is not evaluated any more
  generalize Machine.closedTarget ⟨46⟩ = m at *
  refine ⟨hforwarding, hfree, ?_, ⟨53⟩, _, _, _, Run.eq_ok_of_given? hcreate,
    Run.eq_ok_of_given? hdirect, Run.eq_ok_of_given? himage⟩
  rw [hobject]
  exact ⟨rfl, rfl⟩

end ObjectModel
