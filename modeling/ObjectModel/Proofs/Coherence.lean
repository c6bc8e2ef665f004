import ObjectModel.Proofs.Forwarding

/-!
# Reading and assigning through a forwarding proxy

A proxy whose handler forwards `getOwnPropertyDescriptor`, `getPropertyDescriptor` and
`defineProperty` to an object has no operation for reading, asking and assigning.  It derives them,
each in its own way: reading and asking look for the first property along the object's chain,
assigning redefines it.  They fit together (`forwarded_access_coherent`): reading gives what reading
the object gives, and what was assigned is read afterwards.
-/

namespace ObjectModel

/-- The operations of a handler that looks up and defines. -/
def HandlerOperation.ofAccess : List HandlerOperation :=
  [.getOwnPropertyDescriptor, .getPropertyDescriptor, .defineProperty]

/-- The definition that assigns a value where the given property was found. -/
def Descriptor.assigning (v : Value) : Option Descriptor → Option Descriptor
  | none => some (.plain v)
  | some d =>
    if d.isData = true ∧ d.writable = some true then some { d with value := some v } else none

/-- A descriptor without accessor functions. -/
theorem Descriptor.sayable_data {h : Heap} {d : Descriptor} (hget : d.get = none)
    (hset : d.set = none) : d.Sayable h where
  callable f hf := by
    rw [hget, hset] at hf
    rcases hf with hf | hf <;> cases hf
  single := by simp [Descriptor.isAccessor, hget, hset]

/-! ## Reading along a chain -/

section Reading

variable {host : Host} {m : Machine} {k : Key} {n : Nat}

theorem Engine.readThrough_own {eng : Engine} {o : Object} {d : Descriptor}
    (hd : o.ownDescriptor k = some d) (receiver : Value) :
    eng.readThrough receiver (some d) =
      match d.value with
      | some v => pure v
      | none => eng.callGetter d.get.join receiver := by
  rcases Object.value_of_ownDescriptor hd with ⟨v, w, hv, -, -⟩ | ⟨hv, hdata, -⟩
  · simp [readThrough, Descriptor.isData, hv]
  · simp only [readThrough, hdata, hv]
    cases d.get with
    | none => rfl
    | some getter => cases getter <;> rfl

/-- **Reading along a chain** gives to the receiver what the first property gives; an engine with
more fuel reads it from further up. -/
theorem hosted_getFor_eq {o : Ref} {l : List Ref} (hl : m.heap.Chain (some o) l)
    (receiver : Value) :
    ∃ extra, (hostedEngine host (n + 2 + extra)).getFor o k receiver m =
      (hostedEngine host (n + 1)).readThrough receiver (m.heap.firstOwn k l) m := by
  obtain ⟨extra, -, hwalk⟩ :=
    hl.hosted_walk host (Method.seeks_get k receiver) fun _ _ => rfl
  refine ⟨extra, (hwalk n).trans ?_⟩
  cases hfirst : m.heap.firstOwn k l with
  | none => rfl
  | some d =>
    obtain ⟨q, -, hown⟩ := Heap.ownDescriptor_of_firstOwn hfirst
    rw [Engine.readThrough_own hown, Option.elim_some]
    cases d.value <;> rfl

end Reading

/-! ## The proxy -/

namespace Machine.Reflects

variable {m : Machine} {host : Host} {hd : Handler} {l chain : List Ref} {object p : Ref} {n : Nat}
  {k : Key} (h : m.Reflects host hd HandlerOperation.ofAccess l object p)
  (hchain : m.heap.Chain (some object) chain) (hk : k.Canonical)
  (hcallable : ∀ d, m.heap.firstOwn k chain = some d → d.Callable m.heap)

include hcallable in
theorem sayable_first {d : Descriptor} (hd : m.heap.firstOwn k chain = some d) :
    d.Sayable m.heap := by
  obtain ⟨o, -, hown⟩ := Heap.ownDescriptor_of_firstOwn hd
  exact ⟨hcallable d hd, (Object.ownDescriptor_complete hown).2⟩

variable (hn : l.length ≤ n) (hlength : chain.length ≤ n)

include h hchain hk hn hlength

/-- To ask for a property its functions need not be callable. -/
theorem adds_has :
    Run.Adds m ((hostedEngine host (n + 3)).hasProperty p k) (m.heap.firstOwn k chain).isSome := by
  obtain ⟨f, hf, hdescribes⟩ := h.describesFirst (by decide) hn hk hchain hlength
  refine .congr ?_ ((h.answers _).has k)
  have hhas := h.forwards.absent .has (by decide)
  simp only [Engine.answerHas, Engine.consult, hhas, hf]
  exact (hdescribes (.object hd.object)).isSome

include hcallable

theorem getFor_eq (hiterator : k ≠ .iterator) (receiver : Value) :
    ∃ m', m.Grown m' ∧ (hostedEngine host (n + 3)).getFor p k receiver m =
      (hostedEngine host (n + 2)).readThrough receiver (m.heap.firstOwn k chain) m' := by
  obtain ⟨f, hf, hdescribes⟩ := h.describesFirst (by decide) hn hk hchain hlength
  obtain ⟨m', hfound, hgrown⟩ :=
    (hdescribes (.object hd.object)).described fun d => sayable_first hcallable
  refine ⟨m', hgrown, ((h.answers _).get k receiver).trans ?_⟩
  have hget := h.forwards.absent .get (by decide)
  simp only [Engine.answerGet, Engine.consult, hget, hf, if_neg hiterator]
  exact Run.bind_ok hfound

/-- The property to be redefined is the first along the chain. -/
theorem adds_firstDescribed :
    Run.Adds m ((hostedEngine host (n + 2)).firstDescribed hd k.toValue
      [.getOwnPropertyDescriptor, .getPropertyDescriptor]) (m.heap.firstOwn k chain) := by
  obtain ⟨rest, rfl⟩ : ∃ rest, chain = object :: rest := by
    cases hchain
    exact ⟨_, rfl⟩
  have hfirst : m.heap.firstOwn k (object :: rest) =
      ((m.heap.object object).ownDescriptor k).or (m.heap.firstOwn k rest) := Heap.firstOwn_cons
  obtain ⟨f, hf, hown⟩ := h.describes (by decide) hn hk
  have hdescribed := (hown (.object hd.object)).described fun d hd =>
    sayable_first hcallable (by rw [hfirst, hd, Option.some_or])
  simp only [Engine.firstDescribed, hf]
  refine hdescribed.bind fun m₁ hgrown => ?_
  cases hnone : (m.heap.object object).ownDescriptor k with
  | some d =>
    rw [hfirst, hnone]
    exact .of_same rfl
  | none =>
    have hsame := hgrown.firstOwn hchain k
    obtain ⟨g, hg, hlookup⟩ := (h.grown hgrown).describesFirst (by decide) hn hk
      (hgrown.chain hchain) hlength
    rw [hsame] at hlookup
    have hdescribed := (hlookup (.object hd.object)).described fun d hd => by
      have hsay := sayable_first hcallable hd
      exact ⟨fun f hf => hgrown.callable? (hsay.callable f hf), hsay.single⟩
    simp only [hg]
    refine hdescribed.bind fun m₂ _ => ?_
    cases m.heap.firstOwn k (object :: rest) <;> exact .of_same rfl

/-- Assigning looks for the property first. -/
theorem setFor_eq (v receiver : Value) :
    ∃ m', m.Grown m' ∧ (hostedEngine host (n + 3)).setFor p k v receiver m =
      (hostedEngine host (n + 2)).assign hd k.toValue v receiver (m.heap.firstOwn k chain) m' := by
  obtain ⟨m', hfound, hgrown⟩ := h.adds_firstDescribed hchain hk hcallable hn hlength
  refine ⟨m', hgrown, ((h.answers _).set k v receiver).trans ?_⟩
  have hset := h.forwards.absent .set (by decide)
  simp only [Engine.answerSet, hset]
  exact Run.bind_ok hfound

/-- What can be assigned is defined on the object. -/
theorem set_defines {v : Value} {d : Descriptor}
    (hassign : Descriptor.assigning v (m.heap.firstOwn k chain) = some d) (receiver : Value) :
    m.Defines object k d ((hostedEngine host (n + 4)).setFor p k v receiver) true := by
  obtain ⟨m', hgrown, hrun⟩ := h.setFor_eq hchain hk hcallable (n := n + 1) (by omega) (by omega) v
    receiver
  obtain ⟨hredefine, hsay⟩ : (hostedEngine host (n + 3)).assign hd k.toValue v receiver
      (m.heap.firstOwn k chain) = (hostedEngine host (n + 3)).redefine hd k.toValue d ∧
        d.Sayable m'.heap := by
    cases hfound : m.heap.firstOwn k chain with
    | none =>
      rw [hfound] at hassign
      cases hassign
      exact ⟨rfl, Descriptor.sayable_data rfl rfl⟩
    | some found =>
      rw [hfound, Descriptor.assigning] at hassign
      split at hassign
      · next hwritable =>
        cases hassign
        have hsay := sayable_first hcallable hfound
        refine ⟨?_, ⟨fun f hf => hgrown.callable? (hsay.callable f hf), ?_⟩⟩
        · simp only [Engine.assign, if_pos hwritable.1, if_pos hwritable.2]
        · have hsingle := hsay.single
          rw [hwritable.1, Bool.and_true] at hsingle
          show (found.isAccessor && _) = false
          rw [hsingle]
          rfl
      · cases hassign
  obtain ⟨f, hf, hdefines⟩ := (h.grown hgrown).defines (n := n + 1) (by decide) (by omega) hk hsay
  refine (hdefines (.object hd.object)).of_grown hgrown h.live (hrun.trans ?_)
  rw [hredefine]
  simp only [Engine.redefine, hf]

/-- What cannot be assigned and has no setter is refused. -/
theorem adds_refused {v : Value} {d : Descriptor} (hfound : m.heap.firstOwn k chain = some d)
    (hassigning : Descriptor.assigning v (some d) = none) (hset : d.set.join = none)
    (receiver : Value) :
    Run.Adds m ((hostedEngine host (n + 3)).setFor p k v receiver) false := by
  obtain ⟨m', hgrown, hrun⟩ := h.setFor_eq hchain hk hcallable hn hlength v receiver
  refine ⟨m', hrun.trans ?_, hgrown⟩
  simp only [hfound, Engine.assign]
  split
  · next hdata =>
    simp only [Descriptor.assigning, hdata, true_and] at hassigning
    split at hassigning
    · cases hassigning
    · next hwritable => rw [if_neg hwritable]; rfl
  · cases hd : d.set with
    | none => rfl
    | some setter =>
      cases setter with
      | none => rfl
      | some f => simp [hd] at hset

/-- A setter is called. -/
theorem setFor_setter {v : Value} {d : Descriptor} {f : Ref}
    (hfound : m.heap.firstOwn k chain = some d) (hset : d.set = some (some f)) (receiver : Value) :
    ∃ m', m.Grown m' ∧ (hostedEngine host (n + 3)).setFor p k v receiver m =
      (do
        let _ ← (hostedEngine host (n + 2)).call (.object f) receiver [v]
        pure true) m' := by
  obtain ⟨m', hgrown, hrun⟩ := h.setFor_eq hchain hk hcallable hn hlength v receiver
  refine ⟨m', hgrown, hrun.trans ?_⟩
  have hdata : d.isData = false := by
    have hsingle := (sayable_first hcallable hfound).single
    simpa [Descriptor.isAccessor, hset] using hsingle
  simp only [hfound, Engine.assign, hdata, hset]
  rfl

end Machine.Reflects

/-! ## What was assigned is read afterwards -/

/-- A definition of a value makes a property with that value. -/
theorem Property.toDescriptor_revise {extensible : Bool} {current : Option Property}
    {d : Descriptor} {p : Property} {v : Value}
    (h : revise extensible current d = some p) (hv : d.value = some v)
    (haccessor : d.isAccessor = false) :
    p.toDescriptor.value = some v ∧ p.toDescriptor.get = none ∧ p.toDescriptor.set = none := by
  have hdata : d.isData = true := by simp [Descriptor.isData, hv]
  cases current with
  | none =>
    simp only [revise] at h
    split at h
    · cases h
      simp [ofDescriptor, toDescriptor, haccessor, hv]
    · cases h
  | some q =>
    simp only [revise] at h
    split at h
    · cases h
      obtain ⟨content, enumerable, configurable⟩ := q
      cases content <;> simp [merge, toDescriptor, haccessor, hdata, hv]
    · cases h

/-- A definition changes the property of its key only. -/
theorem Object.Ordinary.ownDescriptor_define? {o o' : Object} (ho : o.Ordinary) {k : Key}
    {d : Descriptor} (h : o.define? k d = some o') (k' : Key) :
    o'.ownDescriptor k' =
      if k' = k then
        (Property.revise o.extensible (o.properties.find? k) d).map Property.toDescriptor
      else o.ownDescriptor k' := by
  have ho' : o'.Ordinary := ho.of_kind (kind_define? h)
  obtain ⟨p, hp, rfl⟩ := exists_of_define? h
  rw [ho'.ownDescriptor, ho.ownDescriptor, Slots.find?_insert]
  split
  · rw [hp]
  · rfl

theorem Descriptor.value_of_assigning {v : Value} {found : Option Descriptor} {d : Descriptor}
    (h : assigning v found = some d)
    (hsingle : ∀ e, found = some e → (e.isAccessor && e.isData) = false) :
    d.value = some v ∧ d.isAccessor = false := by
  cases found with
  | none =>
    cases h
    exact ⟨rfl, rfl⟩
  | some e =>
    simp only [assigning] at h
    split at h
    · next hwritable =>
      cases h
      refine ⟨rfl, ?_⟩
      have hsingle := hsingle e rfl
      rw [hwritable.1, Bool.and_true] at hsingle
      exact hsingle
    · cases h

/-- How the assignment of a value through the proxy ends, by the first property along the object's
chain. -/
inductive Machine.Assigns (m : Machine) (host : Host) (n : Nat) (l : List Ref) (object p : Ref)
    (k : Key) (v receiver : Value) (found : Option Descriptor) : Prop where
  /-- The value was defined on the object and is read from then on.  No other property of the object
  and no other object changed. -/
  | defined (d : Descriptor) (o : Object) (m' : Machine)
    (assigning : Descriptor.assigning v found = some d)
    (define : (m.heap.object object).define? k d = some o)
    (run : (hostedEngine host (n + 4)).setFor p k v receiver m = .ok true m')
    (frame : (m.replace object o).Grown m')
    (others : ∀ k', k' ≠ k → o.ownDescriptor k' = (m.heap.object object).ownDescriptor k')
    (read : (object ∈ l → k ∉ Descriptor.fieldNames) → ∀ receiver',
      Run.Adds m' ((hostedEngine host (n + 4)).getFor p k receiver') v)
  /-- The object refused the definition. -/
  | threw (d : Descriptor) (e : Value) (m' : Machine)
    (assigning : Descriptor.assigning v found = some d)
    (define : (m.heap.object object).define? k d = none)
    (run : (hostedEngine host (n + 4)).setFor p k v receiver m = .error (.thrown e) m')
    (frame : m.Grown m') (kind : Session.errorKind? m'.heap e = some .typeError)
  /-- A setter got the value. -/
  | called (d : Descriptor) (f : Ref) (m' : Machine) (found : found = some d)
    (setter : d.set = some (some f)) (frame : m.Grown m')
    (run : (hostedEngine host (n + 4)).setFor p k v receiver m =
      (do
        let _ ← (hostedEngine host (n + 3)).call (.object f) receiver [v]
        pure true) m')
  /-- The property is read-only. -/
  | refused (d : Descriptor) (m' : Machine) (found : found = some d)
    (assigning : Descriptor.assigning v (some d) = none) (setter : d.set.join = none)
    (run : (hostedEngine host (n + 4)).setFor p k v receiver m = .ok false m')
    (frame : m.Grown m')

namespace Machine.Reflects

variable {m : Machine} {host : Host} {hd : Handler} {l chain : List Ref} {object p : Ref} {n : Nat}
  {k : Key} (h : m.Reflects host hd HandlerOperation.ofAccess l object p)
  (hchain : m.heap.Chain (some object) chain) (hk : k.Canonical)
  (hcallable : ∀ d, m.heap.firstOwn k chain = some d → d.Callable m.heap)
  (hn : l.length ≤ n) (hlength : chain.length ≤ n)

include h hchain hk hn hlength

/-- A value that was defined on the object is read through the proxy. -/
theorem adds_defined (hiterator : k ≠ .iterator) {v : Value} {d : Descriptor} {o : Object}
    (hdefine : (m.heap.object object).define? k d = some o) (hv : d.value = some v)
    (haccessor : d.isAccessor = false) {m' : Machine} (hgrown : (m.replace object o).Grown m')
    (hfree : object ∈ l → k ∉ Descriptor.fieldNames) (receiver : Value) :
    Run.Adds m' ((hostedEngine host (n + 3)).getFor p k receiver) v := by
  have hkind := Object.kind_define? hdefine
  obtain ⟨q, hq, hvalue⟩ : ∃ q : Property, o.ownDescriptor k = some q.toDescriptor ∧
      q.toDescriptor.value = some v ∧ q.toDescriptor.get = none ∧ q.toDescriptor.set = none := by
    have hown := h.ordinary.ownDescriptor_define? hdefine k
    rw [if_pos rfl] at hown
    obtain ⟨q, hq, rfl⟩ := Object.exists_of_define? hdefine
    rw [hq] at hown
    exact ⟨q, hown, Property.toDescriptor_revise hq hv haccessor⟩
  have hlive : object.index < (m.replace object o).size := by
    rw [size_replace]
    exact h.live
  have hobject : m'.heap.object object = o := by
    rw [hgrown.object hlive, object_replace h.live, if_pos rfl]
  have hprototype : o.prototype = (m.heap.object object).prototype := by
    obtain ⟨q, -, rfl⟩ := Object.exists_of_define? hdefine
    rfl
  have hreflects : m'.Reflects host hd HandlerOperation.ofAccess l object p := by
    refine (h.replace hkind hprototype fun hmem k' hk' => ?_).grown hgrown
    have hne : k' ≠ k := fun heq => hfree hmem (heq ▸ hk')
    have habsent := h.free.absent k' hk'
    rw [Heap.firstOwn, List.findSome?_eq_none_iff] at habsent
    rw [h.ordinary.ownDescriptor_define? hdefine, if_neg hne]
    exact habsent object hmem
  have hchain' := hgrown.chain (chain_replace h.live hkind hprototype hchain)
  -- the object comes first on its chain
  have hfirst : m'.heap.firstOwn k chain = some q.toDescriptor := by
    obtain ⟨rest, rfl⟩ : ∃ rest, chain = object :: rest := by
      cases hchain
      exact ⟨_, rfl⟩
    rw [Heap.firstOwn_cons, hobject, hq, Option.some_or]
  have hsay : ∀ d, m'.heap.firstOwn k chain = some d → d.Callable m'.heap := by
    intro d hd
    rw [hfirst] at hd
    cases hd
    exact (Descriptor.sayable_data hvalue.2.1 hvalue.2.2).callable
  obtain ⟨m'', hgrown', hrun⟩ := hreflects.getFor_eq hchain' hk hsay hn hlength hiterator receiver
  refine ⟨m'', hrun.trans ?_, hgrown'⟩
  rw [hfirst, Engine.readThrough_own (hobject ▸ hq), hvalue.1]
  rfl

include hcallable

theorem assigns (hiterator : k ≠ .iterator) (v receiver : Value) :
    m.Assigns host n l object p k v receiver (m.heap.firstOwn k chain) := by
  cases hassigning : Descriptor.assigning v (m.heap.firstOwn k chain) with
  | some d =>
    obtain ⟨hv, haccessor⟩ := Descriptor.value_of_assigning hassigning fun e he =>
      (sayable_first hcallable he).single
    rcases h.set_defines hchain hk hcallable hn hlength hassigning receiver with
      ⟨o, m', hdefine, hrun, hgrown⟩ | ⟨e, m', hdefine, hrun, hgrown, hkind⟩
    · refine .defined d o m' hassigning hdefine hrun hgrown (fun k' hk' => ?_)
        fun hfree receiver' => h.adds_defined hchain hk (Nat.le_succ_of_le hn)
          (Nat.le_succ_of_le hlength) hiterator hdefine hv haccessor hgrown hfree receiver'
      rw [h.ordinary.ownDescriptor_define? hdefine, if_neg hk']
    · exact .threw d e m' hassigning hdefine hrun hgrown hkind
  | none =>
    cases hfound : m.heap.firstOwn k chain with
    | none =>
      rw [hfound] at hassigning
      cases hassigning
    | some d =>
      rw [hfound] at hassigning
      cases hset : d.set.join with
      | none =>
        obtain ⟨m', hrun, hgrown⟩ := h.adds_refused hchain hk hcallable (Nat.le_succ_of_le hn)
          (Nat.le_succ_of_le hlength) hfound hassigning hset receiver
        exact .refused d m' rfl hassigning hset hrun hgrown
      | some f =>
        have hset : d.set = some (some f) := Option.join_eq_some_iff.1 hset
        obtain ⟨m', hgrown, hrun⟩ := h.setFor_setter hchain hk hcallable (Nat.le_succ_of_le hn)
          (Nat.le_succ_of_le hlength) (v := v) hfound hset receiver
        exact .called d f m' rfl hset hgrown hrun

end Machine.Reflects

/-- **Reading, asking and assigning through a forwarding proxy fit together.**  A proxy is made from
every handler that forwards the three operations to an ordinary object, and it reflects the object
as long as no property on the chain of the prototype of objects is named like a field of a
description.  In every machine where it does a key is on the proxy exactly if it is on the object.
For every key other than that of iterators, if the functions of the property can be called:

* reading it from the proxy does with the first property along the object's chain what reading it
  from the object does, where there are further objects;
* assigning it ends in one of four ways.  A value that was defined is read afterwards, and no other
  property has changed; where the answer is no, nothing has changed. -/
theorem forwarded_access_coherent {host : Host} {n : Nat} {m : Machine} {handler object : Ref}
    {handlers : List Ref} (hforwarding :
      m.heap.Forwarding host handler object handlers HandlerOperation.ofAccess)
    (hlive : object.index < m.size) (hordinary : (m.heap.object object).Ordinary)
    (hn : handlers.length < n) (proto : Option Ref) :
    ∃ p m₀ hd, (hostedEngine host n).proxyCreate (.object handler) (.ofRef? proto) m = .ok p m₀ ∧
      m.Grown m₀ ∧
      (∀ l, m.heap.FieldFree l → m₀.Reflects host hd HandlerOperation.ofAccess l object p) ∧
      ∀ (m' : Machine) (l chain : List Ref) (k : Key) (fuel : Nat),
        m'.Reflects host hd HandlerOperation.ofAccess l object p →
        m'.heap.Chain (some object) chain → k.Canonical → l.length ≤ fuel → chain.length ≤ fuel →
          ((hostedEngine host (fuel + 3)).hasProperty object k m' =
              .ok (m'.heap.firstOwn k chain).isSome m' ∧
            Run.Adds m' ((hostedEngine host (fuel + 3)).hasProperty p k)
              (m'.heap.firstOwn k chain).isSome) ∧
          (k ≠ .iterator → (∀ d, m'.heap.firstOwn k chain = some d → d.Callable m'.heap) →
            (∀ receiver, ∃ extra m'', m'.Grown m'' ∧
              (hostedEngine host (fuel + 3 + extra)).getFor object k receiver m' =
                (hostedEngine host (fuel + 2)).readThrough receiver (m'.heap.firstOwn k chain)
                  m' ∧
              (hostedEngine host (fuel + 3)).getFor p k receiver m' =
                (hostedEngine host (fuel + 2)).readThrough receiver (m'.heap.firstOwn k chain)
                  m'') ∧
            ∀ v receiver, m'.Assigns host fuel l object p k v receiver
              (m'.heap.firstOwn k chain)) := by
  obtain ⟨p, m₀, target, hd, hcreate, hgrown, hkind, hforwards⟩ :=
    hosted_proxyCreate hforwarding hn proto
  refine ⟨p, m₀, hd, hcreate, hgrown, fun l hfree => ?_, ?_⟩
  · refine ⟨⟨target, none, hkind⟩, hforwards, Nat.lt_of_lt_of_le hlive hgrown.size_le, ?_,
      hgrown.fieldFree hfree⟩
    rw [hgrown.object hlive]
    exact hordinary
  · intro m' l chain k fuel h hchain hk hl hlength
    refine ⟨⟨hosted_hasProperty hchain (by omega), h.adds_has hchain hk hl hlength⟩,
      fun hiterator hcallable => ⟨fun receiver => ?_,
        h.assigns hchain hk hcallable hl hlength hiterator⟩⟩
    obtain ⟨extra, hobject⟩ : ∃ extra,
        (hostedEngine host (fuel + 3 + extra)).getFor object k receiver m' =
          (hostedEngine host (fuel + 2)).readThrough receiver (m'.heap.firstOwn k chain) m' :=
      hosted_getFor_eq hchain receiver
    obtain ⟨m'', hgrown', hproxy⟩ := h.getFor_eq hchain hk hcallable hl hlength hiterator receiver
    exact ⟨extra, m'', hgrown', hobject, hproxy⟩

/-! ### An object with an inherited method -/

/-- An object with a pair of accessor functions that inherits from the prototype of objects. -/
def Object.accessorTarget (getter setter : Ref) : Object :=
  { Object.new (some Intrinsic.objectPrototype.ref) .ordinary with
    properties := PropertyTable.empty.insert "x"
      ⟨.accessor (some getter) (some setter), true, true⟩ }

/-- The realm with a handler that forwards to such an object; the handler stands at place 46, the
object after it, and then the functions of the handler. -/
def Machine.accessorTarget (getter setter : Ref) : Machine :=
  (Session.initialMachine ⟨true, false⟩).withForwarder HandlerOperation.ofAccess
    (.accessorTarget getter setter)

def Host.accessorTarget : Host := .ofForwarder 46 HandlerOperation.ofAccess

/-- The handler at place 46 forwards to the object after it. -/
theorem Machine.forwarding_accessorTarget (getter setter : Ref) :
    (Machine.accessorTarget getter setter).heap.Forwarding Host.accessorTarget ⟨46⟩ ⟨47⟩ [⟨46⟩]
        HandlerOperation.ofAccess ∧
      (Machine.accessorTarget getter setter).heap.FieldFree [Intrinsic.objectPrototype.ref] ∧
      (Machine.accessorTarget getter setter).heap.object ⟨47⟩ = .accessorTarget getter setter := by
  have hsize : (Session.initialMachine ⟨true, false⟩).size = 46 := by decide +kernel
  have hfree := fieldFree_initialMachine ⟨true, false⟩
  unfold Machine.accessorTarget
  -- from here on the realm is not evaluated any more
  generalize Session.initialMachine ⟨true, false⟩ = m at *
  have hforwarding :=
    m.forwarding_withForwarder HandlerOperation.ofAccess (.accessorTarget getter setter)
    (by decide)
  have hobject :=
    m.object_withForwarder_object HandlerOperation.ofAccess (.accessorTarget getter setter)
  rw [hsize] at hforwarding hobject
  exact ⟨hforwarding, (m.grown_withForwarder _ _).fieldFree hfree, hobject⟩

/-- A method is inherited, and what is assigned in its place is the object's own and is read from
then on. -/
theorem forwarded_access_accessorTarget :
    ∃ p m₀ m₁ m₂, (hostedEngine Host.accessorTarget 12).proxyCreate (.object ⟨46⟩) (.ofRef? none)
        (Machine.accessorTarget ⟨48⟩ ⟨49⟩) = .ok p m₀ ∧
      (m₀.heap.object ⟨47⟩).ownDescriptor "toString" = none ∧
      (m₀.heap.firstOwn "toString" [⟨47⟩, Intrinsic.objectPrototype.ref]).isSome ∧
      (hostedEngine Host.accessorTarget 12).setFor p "toString" .null (.object p) m₀ = .ok true m₁ ∧
      (hostedEngine Host.accessorTarget 12).getFor p "toString" (.object p) m₁ = .ok .null m₂ := by
  obtain ⟨hforwarding, hfree, hobject⟩ := Machine.forwarding_accessorTarget ⟨48⟩ ⟨49⟩
  have hlive : 47 < (Machine.accessorTarget ⟨48⟩ ⟨49⟩).size := by decide +kernel
  have hmethod : ((Machine.accessorTarget ⟨48⟩ ⟨49⟩).heap.firstOwn "toString"
      [Intrinsic.objectPrototype.ref]).any (fun d =>
        d.isData ∧ d.writable = some true ∧ d.get = none ∧ d.set = none) = true := by
    decide +kernel
  -- from here on the machine is not evaluated any more
  generalize Machine.accessorTarget ⟨48⟩ ⟨49⟩ = m at *
  have hown : (m.heap.object ⟨47⟩).ownDescriptor "toString" = none := by
    rw [hobject]
    decide
  have hchain : m.heap.Chain (some ⟨47⟩) [⟨47⟩, Intrinsic.objectPrototype.ref] := by
    refine .link hlive ?_ ?_
    · rw [hobject]
      rfl
    · rw [hobject]
      exact hfree.chain
  obtain ⟨d, hd, hplain⟩ := (Option.any_eq_true _ _).1 hmethod
  obtain ⟨hdata, hwritable, hget, hset⟩ := of_decide_eq_true hplain
  have hfirst : m.heap.firstOwn "toString" [⟨47⟩, Intrinsic.objectPrototype.ref] = some d := by
    rw [Heap.firstOwn, List.findSome?_cons, hown]
    exact hd
  have hordinary : (m.heap.object ⟨47⟩).Ordinary := by
    rw [hobject]
    exact ⟨rfl, rfl⟩
  obtain ⟨p, m₀, hd, hcreate, hgrown, hreflects, hcoherent⟩ :=
    forwarded_access_coherent hforwarding hlive hordinary (n := 12) (by decide) none
  have hfirst₀ := (hgrown.firstOwn hchain "toString").trans hfirst
  obtain ⟨-, haccess⟩ := hcoherent m₀ _ _ "toString" 8 (hreflects _ hfree) (hgrown.chain hchain)
    (show Text.arrayIndex? "toString" = none by decide) (by decide) (by decide)
  obtain ⟨-, hassigns⟩ := haccess (by decide) fun e he => by
    rw [hfirst₀] at he
    cases he
    exact (Descriptor.sayable_data hget hset).callable
  have hassigning : Descriptor.assigning .null (some d) = some { d with value := some .null } :=
    if_pos ⟨hdata, hwritable⟩
  have hobject₀ := (hgrown.object hlive).trans hobject
  cases hassigns .null (.object p) with
  | defined e o m₁ _ hdefine hset _ _ hread =>
    obtain ⟨m₂, hget, -⟩ := hread (fun hmem => absurd hmem (by decide)) (.object p)
    exact ⟨p, m₀, m₁, m₂, hcreate, by rw [hobject₀]; decide, by rw [hfirst₀]; rfl, hset, hget⟩
  | threw e v m' hassign hdefine =>
    have hfind : (Object.accessorTarget ⟨48⟩ ⟨49⟩).properties.find? "toString" = none := by decide
    rw [hobject₀, Object.define?, hfind] at hdefine
    cases hdefine
  | called e f m' hfound hsetter =>
    rw [hfirst₀] at hfound
    cases hfound
    rw [hset] at hsetter
    cases hsetter
  | refused e m' hfound hrefused =>
    rw [hfirst₀] at hfound
    cases hfound
    rw [hassigning] at hrefused
    cases hrefused

/-- A setter that cannot be called stands beside a getter: the object is read by the getter, and
reading the proxy throws. -/
theorem uncallable_setter_incoherent :
    (Machine.accessorTarget ⟨48⟩ ⟨46⟩).heap.Forwarding Host.accessorTarget ⟨46⟩ ⟨47⟩ [⟨46⟩]
        HandlerOperation.ofAccess ∧
      (Machine.accessorTarget ⟨48⟩ ⟨46⟩).heap.FieldFree [Intrinsic.objectPrototype.ref] ∧
      ((Machine.accessorTarget ⟨48⟩ ⟨46⟩).heap.object ⟨47⟩).Ordinary ∧
      ∃ p m₀ m₁ v m₂,
        (hostedEngine Host.accessorTarget 12).proxyCreate (.object ⟨46⟩) (.ofRef? none)
          (Machine.accessorTarget ⟨48⟩ ⟨46⟩) = .ok p m₀ ∧
        (hostedEngine Host.accessorTarget 12).getFor ⟨47⟩ "x" (.object p) m₀ = .ok .undefined m₁ ∧
        (hostedEngine Host.accessorTarget 12).getFor p "x" (.object p) m₀ = .error (.thrown v) m₂ ∧
        Session.errorKind? m₂.heap v = some .typeError := by
  obtain ⟨hforwarding, hfree, hobject⟩ := Machine.forwarding_accessorTarget ⟨48⟩ ⟨46⟩
  have hcreate : Run.given? ((hostedEngine Host.accessorTarget 12).proxyCreate (.object ⟨46⟩)
      (.ofRef? none) (Machine.accessorTarget ⟨48⟩ ⟨46⟩)) = some ⟨52⟩ := by decide +kernel
  have hdirect : Run.given? ((hostedEngine Host.accessorTarget 12).getFor ⟨47⟩ "x" (.object ⟨52⟩)
      (Run.final ((hostedEngine Host.accessorTarget 12).proxyCreate (.object ⟨46⟩) (.ofRef? none)
        (Machine.accessorTarget ⟨48⟩ ⟨46⟩)))) = some .undefined := by decide +kernel
  have hproxy : Run.thrown? ((hostedEngine Host.accessorTarget 12).getFor ⟨52⟩ "x" (.object ⟨52⟩)
      (Run.final ((hostedEngine Host.accessorTarget 12).proxyCreate (.object ⟨46⟩) (.ofRef? none)
        (Machine.accessorTarget ⟨48⟩ ⟨46⟩)))) = some (.object ⟨54⟩) := by decide +kernel
  have hkind : Session.errorKind? (Run.final ((hostedEngine Host.accessorTarget 12).getFor ⟨52⟩ "x"
      (.object ⟨52⟩) (Run.final ((hostedEngine Host.accessorTarget 12).proxyCreate (.object ⟨46⟩)
        (.ofRef? none) (Machine.accessorTarget ⟨48⟩ ⟨46⟩))))).heap (.object ⟨54⟩) =
      some .typeError := by decide +kernel
  -- from here on the machine is not evaluated any more
  generalize Machine.accessorTarget ⟨48⟩ ⟨46⟩ = m at *
  refine ⟨hforwarding, hfree, ?_, ⟨52⟩, _, _, _, _, Run.eq_ok_of_given? hcreate,
    Run.eq_ok_of_given? hdirect, Run.eq_error_of_thrown? hproxy, hkind⟩
  rw [hobject]
  exact ⟨rfl, rfl⟩

end ObjectModel
