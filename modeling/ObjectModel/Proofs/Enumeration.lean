import ObjectModel.Proofs.IterationObject
import ObjectModel.Proofs.PrototypeWalk

/-!
# What an enumeration gives

An enumeration gives the keys of an object and its prototypes.  Where none of these is a proxy, a key
is given if the first object that has it has it as an enumerable property; each key is given once;
and the keys stand in the order of the objects and then of their own keys (`Heap.Enumerates`).

What is returned is an iterator over a list.  Its steps hand out the list from its start to its end
(`Machine.Drains`), and so does the iterator protocol while the next method of such iterators is the
builtin one (`Machine.Handing.iteratorValues`).
-/

namespace ObjectModel

open Relation

/-! ## Visible keys -/

namespace Heap

/-- The first of some objects that has the key. -/
def owner? (h : Heap) (k : Key) (l : List Ref) : Option Ref :=
  l.find? fun r => ((h.object r).ownDescriptor k).isSome

/-- The order of keys along objects: by the position of the first object that has the key, and among
the keys of one object by its own order. -/
def Precedes (h : Heap) (l : List Ref) (j k : Key) : Prop :=
  ∃ a b, h.owner? j l = some a ∧ h.owner? k l = some b ∧
    ([a, b].Sublist l ∨ a = b ∧ [j, k].Sublist (h.object a).ownKeys)

/-- The keys are those of some objects that an enumeration gives. -/
structure Enumerates (h : Heap) (l : List Ref) (ks : List Key) : Prop where
  mem : ∀ k, k ∈ ks ↔
    k.isSymbol = false ∧ (h.firstOwn k l).any Descriptor.isEnumerable = true
  nodup : ks.Nodup
  ordered : ks.Pairwise (h.Precedes l)

variable {h : Heap} {l passed : List Ref} {k : Key} {r : Ref}

theorem owner?_cons_of_some (hr : ((h.object r).ownDescriptor k).isSome = true) :
    h.owner? k (r :: l) = some r := List.find?_cons_of_pos hr

theorem owner?_cons_of_none (hr : (h.object r).ownDescriptor k = none) :
    h.owner? k (r :: l) = h.owner? k l := List.find?_cons_of_neg (by simp [hr])

theorem exists_owner? {d : Descriptor} (hd : h.firstOwn k l = some d) :
    ∃ r, h.owner? k l = some r := by
  obtain ⟨r, hr, hown⟩ := ownDescriptor_of_firstOwn hd
  refine Option.isSome_iff_exists.1 (List.find?_isSome.2 ⟨r, hr, ?_⟩)
  rw [hown]
  rfl

/-- The enumerable keys of one object that are not symbols and that none before it has. -/
theorem mem_newKeys (hr : h.root r = r) :
    (k ∈ (h.shownKeys r).filter fun k =>
        !k.isSymbol && !passed.any (fun q => (h.shown q k).isSome) &&
          (h.shown r k).any Descriptor.isEnumerable) ↔
      k.isSymbol = false ∧ (∀ q ∈ passed, h.shown q k = none) ∧
        ((h.object r).ownDescriptor k).any Descriptor.isEnumerable = true := by
  simp only [shownKeys, shown, hr, List.mem_filter, Object.mem_ownKeys, Bool.and_eq_true,
    Bool.not_eq_true', List.any_eq_false, Bool.not_eq_true, Option.isSome_eq_false_iff,
    Option.isNone_iff_eq_none, and_assoc]
  cases (h.object r).ownDescriptor k <;> simp

section VisibleKeys

variable (hl : ∀ r ∈ l, h.root r = r)

include hl

/-- **A key is visible if the first object that has it has it as an enumerable property.** -/
theorem mem_visibleKeys :
    k ∈ h.visibleKeys passed l ↔
      k.isSymbol = false ∧ (∀ q ∈ passed, h.shown q k = none) ∧
        (h.firstOwn k l).any Descriptor.isEnumerable = true := by
  induction l generalizing passed with
  | nil => simp [visibleKeys, firstOwn]
  | cons r rest ih =>
    have hr := hl r List.mem_cons_self
    have hshown : h.shown r k = (h.object r).ownDescriptor k := by rw [shown, hr]
    rw [visibleKeys, List.mem_append, mem_newKeys hr,
      ih fun q hq => hl q (List.mem_cons_of_mem r hq), List.forall_mem_cons, firstOwn_cons, hshown]
    cases (h.object r).ownDescriptor k <;> simp

theorem nodup_visibleKeys (hnodup : ∀ r ∈ l, (h.object r).ownKeys.Nodup) :
    (h.visibleKeys passed l).Nodup := by
  induction l generalizing passed with
  | nil => exact List.nodup_nil
  | cons r rest ih =>
    have hr := hl r List.mem_cons_self
    have hrest (q) (hq : q ∈ rest) : h.root q = q := hl q (List.mem_cons_of_mem r hq)
    rw [visibleKeys, List.nodup_append]
    refine ⟨?_, ih hrest fun q hq => hnodup q (List.mem_cons_of_mem r hq), ?_⟩
    · rw [shownKeys, hr]
      exact (hnodup r List.mem_cons_self).filter _
    · rintro j hj k hk rfl
      obtain ⟨-, -, howned⟩ := (mem_newKeys hr).1 hj
      obtain ⟨-, hnew, -⟩ := (mem_visibleKeys hrest).1 hk
      have habsent := hnew r List.mem_cons_self
      rw [shown, hr] at habsent
      rw [habsent] at howned
      cases howned

/-- **Visible keys stand in order.** -/
theorem ordered_visibleKeys : (h.visibleKeys passed l).Pairwise (h.Precedes l) := by
  induction l generalizing passed with
  | nil => exact .nil
  | cons r rest ih =>
    have hr := hl r List.mem_cons_self
    have hrest (q) (hq : q ∈ rest) : h.root q = q := hl q (List.mem_cons_of_mem r hq)
    -- a key that is added belongs to the first object, and one that follows does not
    have hfirst {k : Key} (hk : k ∈ (h.shownKeys r).filter fun k =>
        !k.isSymbol && !passed.any (fun q => (h.shown q k).isSome) &&
          (h.shown r k).any Descriptor.isEnumerable) : h.owner? k (r :: rest) = some r := by
      refine owner?_cons_of_some (Object.mem_ownKeys.1 ?_)
      rw [← hr]
      exact (List.mem_filter.1 hk).1
    have hlater {k : Key} (hk : k ∈ h.visibleKeys (r :: passed) rest) :
        h.owner? k (r :: rest) = h.owner? k rest := by
      obtain ⟨-, hnew, -⟩ := (mem_visibleKeys hrest).1 hk
      have habsent := hnew r List.mem_cons_self
      rw [shown, hr] at habsent
      exact owner?_cons_of_none habsent
    rw [visibleKeys, List.pairwise_append]
    refine ⟨List.pairwise_iff_forall_sublist.2 fun {j k} hjk => ?_, ?_, fun j hj k hk => ?_⟩
    · refine ⟨r, r, hfirst (hjk.subset List.mem_cons_self), hfirst (hjk.subset (by simp)),
        .inr ⟨rfl, ?_⟩⟩
      rw [← hr]
      exact hjk.trans List.filter_sublist
    · refine (ih hrest).imp_of_mem fun hj hk hjk => ?_
      obtain ⟨a, b, ha, hb, horder⟩ := hjk
      exact ⟨a, b, (hlater hj).trans ha, (hlater hk).trans hb, horder.imp_left (.cons r)⟩
    · obtain ⟨-, -, hany⟩ := (mem_visibleKeys hrest).1 hk
      obtain ⟨d, hd, -⟩ := (Option.any_eq_true _ _).1 hany
      obtain ⟨b, hb⟩ := exists_owner? hd
      refine ⟨r, b, hfirst hj, (hlater hk).trans hb, .inl ?_⟩
      exact (List.singleton_sublist.2 (List.mem_of_find?_eq_some hb)).cons_cons r

/-- The visible keys are those that an enumeration gives. -/
theorem enumerates_visibleKeys (hnodup : ∀ r ∈ l, (h.object r).ownKeys.Nodup) :
    h.Enumerates l (h.visibleKeys [] l) where
  mem k := by
    rw [mem_visibleKeys hl]
    simp
  nodup := nodup_visibleKeys hl hnodup
  ordered := ordered_visibleKeys hl

end VisibleKeys

end Heap

/-! ## Chains without proxies -/

namespace Heap.Chain

variable {h : Heap} {p : Option Ref} {l : List Ref}

theorem isProxy_of_mem (hl : h.Chain p l) {q : Ref} (hq : q ∈ l) :
    q.index < h.objects.size ∧ (h.object q).isProxy = false := by
  induction hl with
  | done => cases hq
  | link hlive hproxy _ ih =>
    rcases List.mem_cons.1 hq with rfl | hq
    · exact ⟨hlive, hproxy⟩
    · exact ih hq

theorem climb (hl : h.Chain p l) : h.Climb p l := by
  induction hl with
  | done => exact .done
  | link _ hproxy _ ih => exact .link ((prototypeOf_eq hproxy).symm ▸ ih)

/-- From every object of a chain on there is a chain. -/
theorem exists_of_mem (hl : h.Chain p l) {q : Ref} (hq : q ∈ l) :
    ∃ l', h.Chain (some q) l' ∧ l'.length ≤ l.length := by
  induction hl with
  | done => cases hq
  | link hlive hproxy hrest ih =>
    rcases List.mem_cons.1 hq with rfl | hq
    · exact ⟨_, .link hlive hproxy hrest, Nat.le_refl _⟩
    · obtain ⟨l', hl', hlength⟩ := ih hq
      exact ⟨l', hl', Nat.le_succ_of_le hlength⟩

/-- A chain that ends does not come back. -/
protected theorem nodup (hl : h.Chain p l) : l.Nodup := by
  induction hl with
  | done => exact List.nodup_nil
  | link hlive hproxy hrest ih =>
    refine List.nodup_cons.2 ⟨fun hmem => ?_, ih⟩
    obtain ⟨l', hl', hlength⟩ := hrest.exists_of_mem hmem
    rw [hl'.unique (.link hlive hproxy hrest), List.length_cons] at hlength
    exact absurd hlength (Nat.not_succ_le_self _)

theorem length_le (hl : h.Chain p l) : l.length ≤ h.objects.size :=
  length_le_size hl.nodup fun _ hq => (hl.isProxy_of_mem hq).1

/-- A walk along a chain without proxies asks no proxy. -/
theorem opens {m : Machine} {o : Ref} (hl : m.heap.Chain (some o) l) : m.Open o := by
  have hplain {p : Option Ref} {l : List Ref} (hl : m.heap.Chain p l) :
      ∀ o, p = some o → ∀ q, ReflTransGen m.heap.Asks o q → m.heap.Plain q := by
    induction hl with
    | done => exact fun o ho => by cases ho
    | link _ hproxy _ ih =>
      intro o ho q hq
      cases ho
      rcases hq.cases_head with rfl | ⟨next, hnext, hrest⟩
      · exact fun target traps hkind => absurd hkind (kind_ne_proxy hproxy target traps)
      · rcases hnext with hparent | ⟨traps, hkind⟩
        · exact ih next ((prototypeOf_eq hproxy).symm.trans hparent) q hrest
        · exact absurd hkind (kind_ne_proxy hproxy next traps)
  exact ⟨hl.start.1, hplain hl o rfl⟩

end Heap.Chain

/-! ## Draining an iterator over a list -/

/-- The steps of an iterator hand out the values and then report the end. -/
inductive Machine.Drains (eng : Engine) (r : Ref) : Machine → List Value → Prop where
  | finished {m m' : Machine} {result : Ref} (hstep : eng.advance r m = .ok result m')
      (hresult : m'.heap.object result = .reporting .undefined true) : Drains eng r m []
  | handed {m m' : Machine} {result : Ref} {v : Value} {vs : List Value}
      (hstep : eng.advance r m = .ok result m')
      (hresult : m'.heap.object result = .reporting v false) (hrest : Drains eng r m' vs) :
      Drains eng r m (v :: vs)

/-- The object is an iterator over a list that has these values ahead. -/
def Machine.Handing (m : Machine) (r : Ref) (vs : List Value) : Prop :=
  ∃ values cursor position,
    m.heap.object r =
      .new (some Intrinsic.listIteratorPrototype.ref) (.iterator (.list values) cursor) ∧
    cursor.position? = some position ∧ values.toList.drop position = vs

/-- The function is the next method of iterators over lists. -/
structure Machine.HandsBy (m : Machine) (f : Ref) : Prop where
  proxy : (m.heap.object Intrinsic.listIteratorPrototype.ref).isProxy = false
  held : ∃ d, (m.heap.object Intrinsic.listIteratorPrototype.ref).ownDescriptor "next" = some d ∧
    d.value = some (.object f)
  builtin : ∃ data, m.heap.kind f = .function data ∧ data.behaviour = .native .hostNext

namespace Machine.Handing

variable {m : Machine} {r : Ref} {v : Value} {vs : List Value}

/-- A step moves the cursor and takes the first of the values ahead. -/
theorem handOut (h : m.Handing r vs) (eng : Engine) :
    ∃ position cursor, eng.handOut r m =
        .ok (vs.head?.map fun v => (position, v)) (m.moved r cursor) ∧
      (vs ≠ [] → (m.moved r cursor).Handing r vs.tail) := by
  obtain ⟨values, cursor, position, hobject, hposition, rfl⟩ := h
  have hkind : m.heap.kind r = .iterator (.list values) cursor := congrArg Object.kind hobject
  have htake := Engine.take_apply eng hkind (fun _ heq => by cases heq) hposition
  have hout : eng.handOut r m = eng.handOutWithin r 1 m := by
    simp only [Engine.handOut, Run.bind_apply, Run.heap, hkind]
    rfl
  rw [hout, Engine.handOutWithin, Run.bind_ok htake]
  simp only [Heap.elementAt]
  cases hvalue : values[position]? with
  | none =>
    have hend : values.toList.drop position = [] := by
      simpa using hvalue
    rw [hend]
    exact ⟨position, _, rfl, fun hne => absurd rfl hne⟩
  | some v =>
    have hahead : values.toList.drop position = v :: values.toList.drop (position + 1) := by
      have hlist : values.toList[position]? = some v := by simpa using hvalue
      obtain ⟨hlt, rfl⟩ := List.getElem?_eq_some_iff.1 hlist
      exact List.drop_eq_getElem_cons hlt
    rw [hahead]
    refine ⟨position, .active (position + 1), rfl, fun _ => ?_⟩
    exact ⟨values, .active (position + 1), position + 1, by rw [object_moved_self hkind, hobject]; rfl,
      rfl, rfl⟩

/-- **A step of an iterator over a list reports the first of the values ahead, or the end**, and
changes no other object. -/
theorem advance (h : m.Handing r vs) (eng : Engine) :
    ∃ m', eng.advance r m = .ok ⟨m.size⟩ m' ∧
      m'.heap.object ⟨m.size⟩ = .reporting (vs.head?.getD .undefined) vs.isEmpty ∧
      (vs ≠ [] → m'.Handing r vs.tail) ∧
      ∀ p, p ≠ r → p.index < m.size → m'.heap.object p = m.heap.object p := by
  obtain ⟨position, cursor, hout, hahead⟩ := h.handOut eng
  obtain ⟨m', hresult, hgrown, hobject⟩ :=
    Engine.resultFor_apply (vs.head?.map fun v => (position, v)) (m.moved r cursor)
  rw [m.size_moved] at hresult hobject
  have hsame {p : Ref} (hp : p.index < m.size) :
      m'.heap.object p = (m.moved r cursor).heap.object p :=
    hgrown.object (by rwa [m.size_moved])
  refine ⟨m', ?_, ?_, fun hne => ?_, fun p hp hlive => ?_⟩
  · rw [Engine.advance_eq, Run.bind_ok hout, hresult]
  · rw [hobject]
    cases vs <;> rfl
  · obtain ⟨values, cursor', position', hobject', hahead⟩ := hahead hne
    refine ⟨values, cursor', position', ?_, hahead⟩
    rw [hgrown.object (Engine.live_of_iterator (congrArg Object.kind hobject')), hobject']
  · rw [hsame hlive, m.object_moved hp]

/-- **The steps hand out the values ahead from the first to the last.** -/
theorem drains (h : m.Handing r vs) (eng : Engine) : m.Drains eng r vs := by
  induction vs generalizing m with
  | nil =>
    obtain ⟨m', hstep, hresult, -, -⟩ := h.advance eng
    exact .finished hstep hresult
  | cons v rest ih =>
    obtain ⟨m', hstep, hresult, hahead, -⟩ := h.advance eng
    exact .handed hstep hresult (ih (hahead (List.cons_ne_nil v rest)))

end Machine.Handing

/-! ## Draining by the protocol -/

theorem Object.ownDescriptor_reporting (v : Value) (done : Bool) :
    (reporting v done).ownDescriptor "value" = some (.plain v) ∧
      (reporting v done).ownDescriptor "done" = some (.plain (.bool done)) := by
  have hnodup : (([("value", v), ("done", .bool done)] : List (Key × Value)).map Prod.fst).Nodup := by
    simp only [List.map_cons, List.map_nil]
    decide
  have hown {k : Key} {w : Value}
      (hmem : (k, w) ∈ ([("value", v), ("done", .bool done)] : List (Key × Value))) :
      (reporting v done).ownDescriptor k = some (.plain w) := by
    show ((Engine.plainTable _).find? k).map Property.toDescriptor = _
    rw [find?_plainTable_of_mem hnodup hmem]
    rfl
  exact ⟨hown (by simp), hown (by simp)⟩

/-- The result of a step is read as it was made. -/
theorem engine_stepValue {n : Nat} {m m' : Machine} {r result : Ref} {v : Value} {done : Bool}
    (hnext : (engine (n + 2)).iteratorNext r m = .ok result m')
    (hresult : m'.heap.object result = .reporting v done) :
    (engine (n + 2)).iteratorStepValue r m = .ok (if done then none else some v) m' := by
  have hproxy : (m'.heap.object result).isProxy = false := by
    rw [hresult]
    rfl
  have hown := Object.ownDescriptor_reporting v done
  rw [← hresult] at hown
  have hdone : (engine (n + 2)).iteratorComplete result m' = .ok done m' :=
    Run.bind_ok (engine_getFor_data hproxy hown.2 rfl)
  have hvalue : (engine (n + 2)).iteratorValue result m' = .ok v m' :=
    engine_getFor_data hproxy hown.1 rfl
  have hstep : (engine (n + 2)).iteratorStep r m =
      .ok (if done then none else some result) m' := by
    rw [Engine.iteratorStep, Run.bind_ok hnext, Run.bind_ok hdone]
    cases done <;> rfl
  rw [Engine.iteratorStepValue, Run.bind_ok hstep]
  cases done with
  | true => rfl
  | false => exact Run.bind_ok hvalue

/-- The builtin next method is there if its prototype holds it. -/
theorem Heap.HoldsNative.handsBy {m : Machine}
    (h : m.heap.HoldsNative Intrinsic.listIteratorPrototype.ref "next" .hostNext)
    (hproxy : (m.heap.object Intrinsic.listIteratorPrototype.ref).isProxy = false) :
    ∃ f, m.HandsBy f := by
  obtain ⟨d, f, data, hd, hv, hkind, hbehaviour⟩ := h.exists_function
  exact ⟨f, hproxy, ⟨d, hd, hv⟩, data, hkind, hbehaviour⟩

namespace Machine.HandsBy

variable {m m' : Machine} {f r : Ref} {vs : List Value}

theorem live (hf : m.HandsBy f) :
    Intrinsic.listIteratorPrototype.ref.index < m.size ∧ f.index < m.size := by
  obtain ⟨-, ⟨d, hd, -⟩, data, hkind, -⟩ := hf
  refine ⟨Nat.lt_of_not_le fun hout => ?_, Heap.live_of_kind (by simp [hkind])⟩
  rw [Heap.object_of_size_le hout] at hd
  cases hd

/-- The method stays while its prototype and its function do. -/
protected theorem congr (hf : m.HandsBy f)
    (hproto : m'.heap.object Intrinsic.listIteratorPrototype.ref =
      m.heap.object Intrinsic.listIteratorPrototype.ref)
    (hmethod : m'.heap.object f = m.heap.object f) : m'.HandsBy f := by
  obtain ⟨hproxy, hheld, data, hkind, hbehaviour⟩ := hf
  exact ⟨hproto ▸ hproxy, hproto ▸ hheld, data,
    (congrArg Object.kind hmethod).trans hkind, hbehaviour⟩

/-- An iterator over a list is neither. -/
theorem ne (hf : m.HandsBy f) (h : m.Handing r vs) :
    Intrinsic.listIteratorPrototype.ref ≠ r ∧ f ≠ r := by
  obtain ⟨-, ⟨d, hd, -⟩, data, hkind, -⟩ := hf
  obtain ⟨values, cursor, position, hobject, -, -⟩ := h
  constructor
  · rintro rfl
    rw [hobject] at hd
    cases hd
  · rintro rfl
    cases (congrArg Object.kind hobject).symm.trans hkind

/-- The next method makes one step. -/
theorem iteratorNext (hf : m.HandsBy f) (h : m.Handing r vs) (n : Nat) :
    (engine (n + 3)).iteratorNext r m = (engine (n + 2)).advance r m := by
  obtain ⟨hproxy, ⟨d, hd, hv⟩, data, hkind, hbehaviour⟩ := hf
  obtain ⟨values, cursor, position, hobject, -, -⟩ := h
  have hread : (engine (n + 3)).getFor r "next" (.object r) m = .ok (.object f) m := by
    rw [engine_getFor_inherited (by rw [hobject]; rfl) (by rw [hobject]; rfl)
      (by rw [hobject]; rfl)]
    exact engine_getFor_data hproxy hd hv
  have hinvoke : (engine (n + 3)).invoke (.object r) "next" [] m =
      (Value.object <$> (engine (n + 2)).advance r) m := by
    rw [Engine.invoke_apply hread, engine_call_native hkind hbehaviour]
    rfl
  have hresult : (Value.object <$> (engine (n + 2)).advance r) >>= Engine.iteratorObject =
      (engine (n + 2)).advance r := by
    rw [bind_map_left]
    exact bind_pure _
  show ((engine (n + 3)).invoke (.object r) "next" [] >>= Engine.iteratorObject) m = _
  rw [Run.bind_apply, hinvoke, ← Run.bind_apply, hresult]

/-- **The protocol gives the values ahead.** -/
theorem iteratorValues (hf : m.HandsBy f) (h : m.Handing r vs) (n : Nat) {fuel : Nat}
    (hfuel : vs.length < fuel) :
    ∃ m', (engine (n + 3)).iteratorValues r fuel m = .ok vs m' := by
  induction vs generalizing m fuel with
  | nil =>
    obtain ⟨fuel, rfl⟩ : ∃ fuel', fuel = fuel' + 1 := ⟨fuel - 1, by omega⟩
    obtain ⟨m', hstep, hresult, -, -⟩ := h.advance (engine (n + 2))
    have hvalue := engine_stepValue ((hf.iteratorNext h n).trans hstep) hresult
    exact ⟨m', Run.bind_ok hvalue⟩
  | cons v rest ih =>
    obtain ⟨fuel, rfl⟩ : ∃ fuel', fuel = fuel' + 1 := ⟨fuel - 1, by omega⟩
    obtain ⟨m₁, hstep, hresult, hahead, hothers⟩ := h.advance (engine (n + 2))
    have hvalue := engine_stepValue ((hf.iteratorNext h n).trans hstep) hresult
    have hf₁ : m₁.HandsBy f :=
      hf.congr (hothers _ (hf.ne h).1 hf.live.1) (hothers f (hf.ne h).2 hf.live.2)
    obtain ⟨m', hrest⟩ := ih hf₁ (hahead (List.cons_ne_nil v rest)) (Nat.lt_of_succ_lt_succ hfuel)
    refine ⟨m', ?_⟩
    rw [Engine.iteratorValues, Run.bind_ok hvalue]
    exact Run.bind_ok hrest

end Machine.HandsBy

/-! ## Enumerating -/

/-- **An enumeration gives what the first objects show.**  For an object with a chain of prototypes,
none of them a proxy, the result is a new iterator.  Its keys are those, symbols apart, that the first
object of the chain that has them has as enumerable properties, each once and in the order of the
chain and of the own keys; so a property of the object that is not enumerable hides one further up.
The steps of the iterator hand out these keys, and so does the protocol with the builtin next
method. -/
theorem enumeration_gives_first_enumerable {m : Machine} (hm : m.Attained) {o : Ref} {l : List Ref}
    (hl : m.heap.Chain (some o) l) {n : Nat} (hn : m.size ≤ n) :
    ∃ ks m', (engine n).enumerate o m = .ok ⟨m.size⟩ m' ∧ m.Grown m' ∧ m.heap.Enumerates l ks ∧
      (∀ k d, (m.heap.object o).ownDescriptor k = some d → d.isEnumerable = false → k ∉ ks) ∧
      (∀ eng, m'.Drains eng ⟨m.size⟩ (ks.map Key.toValue)) ∧
      ((m.heap.object Intrinsic.listIteratorPrototype.ref).isProxy = false →
        m.heap.HoldsNative Intrinsic.listIteratorPrototype.ref "next" .hostNext →
        ∀ n', ks.length + 3 ≤ n' →
          ∃ m'', (engine n').iteratorToList ⟨m.size⟩ m' = .ok (ks.map Key.toValue) m'') := by
  have hroot : ∀ r ∈ l, m.heap.root r = r := fun r hr =>
    Heap.root_eq_self (hl.isProxy_of_mem hr).2
  have henumerates := Heap.enumerates_visibleKeys hroot fun r _ =>
    (hm.regular.objects r).nodup_ownKeys
  have hreads : Run.Reads n m ((engine n).enumerateChain n (some o) ∅) (m.heap.visibleKeys [] l) :=
    reads_enumerateChain hm hl.climb (fun r hr => by cases hr; exact hl.opens)
      (hl.length_le.trans hn) (by simp)
  generalize m.heap.visibleKeys [] l = ks at henumerates hreads
  obtain ⟨m', hnew, hgrown, hobject⟩ : ∃ m', Engine.newIterator
      (.list (ks.map Key.toValue).toArray) m = .ok ⟨m.size⟩ m' ∧ m.Grown m' ∧
      m'.heap.object ⟨m.size⟩ = .new (some Intrinsic.listIteratorPrototype.ref)
        (.iterator (.list (ks.map Key.toValue).toArray) .fresh) :=
    ⟨_, rfl, .allocate m _, Heap.object_allocate_self _ _⟩
  have hhanding : m'.Handing ⟨m.size⟩ (ks.map Key.toValue) :=
    ⟨_, .fresh, 0, hobject, rfl, by simp⟩
  refine ⟨ks, m', ?_, hgrown, henumerates, fun k d hd hhidden hk => ?_, hhanding.drains,
    fun hproxy hholds n' hn' => ?_⟩
  · rw [enumerate_eq hl.opens, Run.bind_ok (hreads.ok hn), hnew]
  · have hany := ((henumerates.mem k).1 hk).2
    obtain ⟨rest, rfl⟩ : ∃ rest, l = o :: rest := by
      cases hl
      exact ⟨_, rfl⟩
    rw [Heap.firstOwn_cons, hd] at hany
    simp [hhidden] at hany
  · obtain ⟨f, hf⟩ := hholds.handsBy hproxy
    have hf' : m'.HandsBy f := hf.congr (hgrown.object hf.live.1) (hgrown.object hf.live.2)
    obtain ⟨n', rfl⟩ : ∃ n'', n' = n'' + 3 := ⟨n' - 3, by omega⟩
    rw [Engine.iteratorToList, limit_engine]
    exact hf'.iteratorValues hhanding n' (by rw [List.length_map]; omega)

/-! ### An object that hides a property of its prototype -/

/-- An object that inherits from another, both with a property `a`. -/
def Expr.inherited : Expr :=
  .operation (.control (.sequence [0, 1]))
    [.operation (.create (.object none [(0, 1), (2, 3)]))
        [.value (.text "a"), .value .null, .value (.text "b"), .value .null] (some "base"),
      .operation (.create (.object (some 0) [(1, 2), (3, 4)]))
        [.name "base", .value (.text "c"), .value .null, .value (.text "a"), .value .null] none]
    none

def Machine.inherited : Machine :=
  Run.final ((engine 9).answer (.evaluate none .inherited) (Session.initialMachine ⟨true, false⟩))

/-- Its own property `a` is not enumerable. -/
def Machine.hiddenProperty : Machine :=
  Run.final ((engine 1).answer (.defineOwnProperty ⟨47⟩ "a" { enumerable := some false })
    Machine.inherited)

theorem Machine.attained_hiddenProperty : Machine.hiddenProperty.Attained := by
  have hinherited : Machine.inherited.Attained := by
    refine .evaluate 9 (fun r => ?_) (.initial _)
    simp [Expr.inherited]
  have hsize : 47 < Machine.inherited.size := by decide +kernel
  refine .answer 1 (.defineOwnProperty ⟨47⟩ "a" { enumerable := some false })
    (fun r hr => ?_) hinherited
  rcases hr with rfl | ⟨_, hvalue, -⟩ | ⟨_, hget, -⟩ | ⟨_, hset, -⟩
  · exact hsize
  · cases hvalue
  · cases hget
  · cases hset

/-- The enumeration leaves out `a`, which the prototype has as an enumerable property, and gives
`b`. -/
theorem enumeration_of_hiddenProperty :
    Machine.hiddenProperty.Attained ∧ Machine.hiddenProperty.size = 48 ∧
    Machine.hiddenProperty.heap.Chain (some ⟨47⟩) [⟨47⟩, ⟨46⟩, Intrinsic.objectPrototype.ref] ∧
    ((Machine.hiddenProperty.heap.object ⟨46⟩).ownDescriptor "a").any
      Descriptor.isEnumerable = true ∧
    ∃ (ks : List Key) (m' : Machine),
      (engine 48).enumerate ⟨47⟩ Machine.hiddenProperty = .ok ⟨48⟩ m' ∧
      ("a" : Key) ∉ ks ∧ ("b" : Key) ∈ ks ∧
      m'.Drains (engine 48) ⟨48⟩ (ks.map Key.toValue) ∧
      ∃ m'', (engine (ks.length + 3)).iteratorToList ⟨48⟩ m' = .ok (ks.map Key.toValue) m'' := by
  have hsize : Machine.hiddenProperty.size = 48 := by decide +kernel
  have hchain : Machine.hiddenProperty.heap.Chain (some ⟨47⟩)
      [⟨47⟩, ⟨46⟩, Intrinsic.objectPrototype.ref] := by decide +kernel
  have hbase : ((Machine.hiddenProperty.heap.object ⟨46⟩).ownDescriptor "a").any
      Descriptor.isEnumerable = true := by decide +kernel
  have hown : ((Machine.hiddenProperty.heap.object ⟨47⟩).ownDescriptor "a").map
      Descriptor.isEnumerable = some false := by decide +kernel
  have hfirst : (Machine.hiddenProperty.heap.firstOwn "b"
      [⟨47⟩, ⟨46⟩, Intrinsic.objectPrototype.ref]).any Descriptor.isEnumerable = true := by
    decide +kernel
  have hproxy : (Machine.hiddenProperty.heap.object Intrinsic.listIteratorPrototype.ref).isProxy =
      false := by decide +kernel
  have hnext : Machine.hiddenProperty.heap.HoldsNative Intrinsic.listIteratorPrototype.ref "next"
      .hostNext := by decide +kernel
  have hm := Machine.attained_hiddenProperty
  -- from here on the machine is not evaluated any more
  generalize Machine.hiddenProperty = m at *
  obtain ⟨ks, m', hrun, -, henumerates, hhidden, hdrains, hlist⟩ :=
    enumeration_gives_first_enumerable hm hchain (n := 48) (Nat.le_of_eq hsize)
  rw [hsize] at hrun hdrains hlist
  obtain ⟨d, hd, henumerable⟩ := Option.map_eq_some_iff.1 hown
  exact ⟨hm, hsize, hchain, hbase, ks, m', hrun, hhidden "a" d hd henumerable,
    (henumerates.mem "b").2 ⟨rfl, hfirst⟩, hdrains _, hlist hproxy hnext _ (Nat.le_refl _)⟩

end ObjectModel
