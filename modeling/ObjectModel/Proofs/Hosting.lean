import ObjectModel.Proofs.Serialization

/-!
# Hosted functions

A host may supply functions beside the builtin ones and those written in expressions.  The engine
then runs what the host gives for an object that is called, and answers everything else as before
(`hostedEngine`).

On objects that are not proxies, methods that only read the heap give what stands there.  A chain
of prototypes without proxies (`Heap.Chain`) is walked to the first object that has the key
(`Heap.Chain.hosted_walk`).  Asking, reading and assigning are such walks (`Method.Seeks`) and differ
in what they do at the end.
-/

namespace ObjectModel

/-- The functions of a host: what runs when an object is called with a receiver and arguments. -/
abbrev Host := Ref → Option (Engine → Value → List Value → Run Value)

/-- Answers one method over an engine; the functions of the host come first. -/
def Engine.hosting (eng : Engine) (host : Host) : {α : Type} → Method α → Run α
  | _, .call f receiver arguments =>
    match host f with
    | some body => body eng receiver arguments
    | none => eng.step (.call f receiver arguments)
  | _, μ => eng.step μ

/-- The engine with the functions of a host. -/
def hostedEngine (host : Host) : Nat → Engine
  | 0 => engine 0
  | fuel + 1 => ⟨fuel + 1, fun μ => (hostedEngine host fuel).hosting host μ⟩

/-- Without functions of a host it is the engine. -/
theorem hostedEngine_none (n : Nat) : hostedEngine (fun _ => none) n = engine n := by
  induction n with
  | zero => rfl
  | succ n ih =>
    rw [hostedEngine, engine, ih]
    congr
    funext α μ
    cases μ <;> rfl

/-! ## Chains of prototypes -/

/-- The objects from the first argument up its prototypes; none of them is a proxy. -/
inductive Heap.Chain (h : Heap) : Option Ref → List Ref → Prop where
  | done : Chain h none []
  | link {o : Ref} {rest : List Ref} (hlive : o.index < h.objects.size)
      (hproxy : (h.object o).isProxy = false) (hrest : Chain h (h.object o).prototype rest) :
      Chain h (some o) (o :: rest)

namespace Heap.Chain

variable {h : Heap} {p : Option Ref} {o : Ref} {l rest : List Ref}

theorem nil_iff : h.Chain p [] ↔ p = none := by
  constructor
  · intro hl
    cases hl
    rfl
  · rintro rfl
    exact .done

theorem cons_iff : h.Chain p (o :: rest) ↔
    p = some o ∧ o.index < h.objects.size ∧ (h.object o).isProxy = false ∧
      h.Chain (h.object o).prototype rest := by
  constructor
  · intro hl
    cases hl with
    | link hlive hproxy hrest => exact ⟨rfl, hlive, hproxy, hrest⟩
  · rintro ⟨rfl, hlive, hproxy, hrest⟩
    exact .link hlive hproxy hrest

theorem start (hl : h.Chain (some o) l) :
    o.index < h.objects.size ∧ (h.object o).isProxy = false := by
  cases hl with
  | link hlive hproxy _ => exact ⟨hlive, hproxy⟩

/-- A chain stays where its objects do not become proxies and keep their prototypes. -/
theorem transfer {h' : Heap} (hl : h.Chain p l)
    (hsame : ∀ r ∈ l, r.index < h.objects.size → (h.object r).isProxy = false →
      r.index < h'.objects.size ∧ (h'.object r).isProxy = false ∧
        (h'.object r).prototype = (h.object r).prototype) : h'.Chain p l := by
  induction hl with
  | done => exact .done
  | @link o rest hlive hproxy _ ih =>
    obtain ⟨hlive', hproxy', hprototype⟩ := hsame o List.mem_cons_self hlive hproxy
    refine .link hlive' hproxy' ?_
    rw [hprototype]
    exact ih fun r hr => hsame r (List.mem_cons_of_mem _ hr)

instance decidable : (p : Option Ref) → (l : List Ref) → Decidable (h.Chain p l)
  | p, [] => decidable_of_iff (p = none) nil_iff.symm
  | _, o :: rest =>
    have := decidable (h.object o).prototype rest
    decidable_of_iff _ cons_iff.symm

end Heap.Chain

/-- The first descriptor of a key among the own properties of some objects. -/
def Heap.firstOwn (h : Heap) (k : Key) (l : List Ref) : Option Descriptor :=
  l.findSome? fun o => (h.object o).ownDescriptor k

theorem Heap.firstOwn_cons {h : Heap} {k : Key} {r : Ref} {l : List Ref} :
    h.firstOwn k (r :: l) = ((h.object r).ownDescriptor k).or (h.firstOwn k l) := by
  rw [firstOwn, List.findSome?_cons]
  cases (h.object r).ownDescriptor k <;> rfl

/-- The object follows the ordinary rules, those of neither a proxy nor an array. -/
def Object.Ordinary (o : Object) : Prop := o.isProxy = false ∧ o.isArray = false

theorem Object.Ordinary.kind_ne_array {o : Object} (ho : o.Ordinary) (length : Nat)
    (writable : Bool) : o.kind ≠ .array length writable := by
  intro hkind
  have harray := ho.2
  simp [Object.isArray, hkind] at harray

theorem Object.Ordinary.ownDescriptor {o : Object} (ho : o.Ordinary) (k : Key) :
    o.ownDescriptor k = (o.properties.find? k).map Property.toDescriptor :=
  ownDescriptor_eq fun harray => absurd (ho.2.symm.trans harray) Bool.false_ne_true

theorem Object.Ordinary.ownKeys {o : Object} (ho : o.Ordinary) : o.ownKeys = o.properties.keys := by
  unfold Object.ownKeys
  split
  · next hkind => exact absurd hkind (ho.kind_ne_array _ _)
  · rfl

theorem Object.Ordinary.of_kind {o o' : Object} (ho : o.Ordinary) (hkind : o'.kind = o.kind) :
    o'.Ordinary := by
  obtain ⟨hproxy, harray⟩ := ho
  unfold isProxy at hproxy
  unfold isArray at harray
  refine ⟨?_, ?_⟩
  · unfold isProxy
    rw [hkind]
    exact hproxy
  · unfold isArray
    rw [hkind]
    exact harray

/-- What is done with an object that is not a proxy. -/
theorem Run.kind_bind_of_not_proxy {α : Type} {m : Machine} {o : Ref}
    (ho : (m.heap.object o).isProxy = false) (f : Ref → TrapTable → Run α) (x : Run α) :
    (do
      match ← Run.kind o with
      | .proxy target traps => f target traps
      | _ => x) m = x m := by
  rw [Run.bind_apply]
  simp only [Run.kind]
  cases hkind : m.heap.kind o with
  | proxy target traps => exact absurd hkind (Heap.kind_ne_proxy ho _ _)
  | _ => rfl

/-- What is done with a proxy. -/
theorem Run.kind_bind_of_proxy {α : Type} {m : Machine} {o target : Ref} {traps : TrapTable}
    (ho : m.heap.kind o = .proxy target traps) (f : Ref → TrapTable → Run α) (x : Run α) :
    (do
      match ← Run.kind o with
      | .proxy target traps => f target traps
      | _ => x) m = f target traps m := by
  rw [Run.bind_apply]
  simp only [Run.kind, ho]

/-! ## Own properties -/

/-- Own properties have all attributes of one kind. -/
theorem Object.ownDescriptor_complete {o : Object} {k : Key} {d : Descriptor}
    (hd : o.ownDescriptor k = some d) :
    d.complete = d ∧ (d.isAccessor && d.isData) = false := by
  have hstored (p : Property) : p.toDescriptor.complete = p.toDescriptor ∧
      (p.toDescriptor.isAccessor && p.toDescriptor.isData) = false := by
    obtain ⟨content, enumerable, configurable⟩ := p
    cases content <;> exact ⟨rfl, rfl⟩
  unfold ownDescriptor at hd
  split at hd
  · split at hd
    · cases hd
      exact ⟨rfl, rfl⟩
    · obtain ⟨p, -, rfl⟩ := Option.map_eq_some_iff.1 hd
      exact hstored p
  · obtain ⟨p, -, rfl⟩ := Option.map_eq_some_iff.1 hd
    exact hstored p

/-- An own property is of data with a value or of accessors only. -/
theorem Object.value_of_ownDescriptor {o : Object} {k : Key} {d : Descriptor}
    (hd : o.ownDescriptor k = some d) :
    (∃ v w, d.value = some v ∧ d.writable = some w ∧ d.isAccessor = false) ∨
      d.value = none ∧ d.isData = false ∧ d.isAccessor = true := by
  obtain ⟨hcomplete, hsingle⟩ := ownDescriptor_complete hd
  by_cases haccessor : d.isAccessor = true
  · have hdata : d.isData = false := by simpa [haccessor] using hsingle
    refine .inr ⟨?_, hdata, haccessor⟩
    simp only [Descriptor.isData, Bool.or_eq_false_iff, Option.isSome_eq_false_iff,
      Option.isNone_iff_eq_none] at hdata
    exact hdata.1
  · rw [Bool.not_eq_true] at haccessor
    have hplain : (d.isGeneric || d.isData) = true := by
      cases hdata : d.isData <;> simp [Descriptor.isGeneric, haccessor, hdata]
    rw [Descriptor.complete, if_pos hplain] at hcomplete
    exact .inl ⟨_, _, (congrArg Descriptor.value hcomplete).symm,
      (congrArg Descriptor.writable hcomplete).symm, haccessor⟩

theorem Heap.ownDescriptor_of_firstOwn {h : Heap} {l : List Ref} {k : Key} {d : Descriptor}
    (hd : h.firstOwn k l = some d) : ∃ o ∈ l, (h.object o).ownDescriptor k = some d :=
  List.exists_of_findSome?_eq_some hd

/-! ## Primitive values -/

/-- A value that is not an object. -/
def Value.IsPrimitive (v : Value) : Prop := ∀ r, v ≠ .object r

/-- The number of a primitive value; a symbol has none. -/
def Value.number? : Value → Option Number
  | .number n => some n
  | .symbol _ => none
  | .undefined | .object _ => some .nan
  | .null => some .zero
  | .bool b => some (Number.ofNat (if b then 1 else 0))
  | .text t => some (Number.ofText t)

namespace Engine

/-- The number of a primitive value needs no engine. -/
theorem toNumber_primitive {v : Value} (hv : v.IsPrimitive) (eng : Engine) :
    eng.toNumber v =
      match v.number? with
      | some n => pure n
      | none => Run.fail .symbolAsNumber := by
  cases v with
  | object r => exact absurd rfl (hv r)
  | _ => rfl

/-- An array's length is defined by a primitive value, or without a value, on the array alone. -/
theorem defineLength_primitive {d : Descriptor} (hd : ∀ v, d.value = some v → v.IsPrimitive)
    (eng : Engine) (o : Ref) :
    eng.defineLength o d =
      match d.value.map Value.number? with
      | none => reviseWith o fun a => a.restrictLength d
      | some none => Run.fail .symbolAsNumber
      | some (some n) =>
        if !n.numericEq (Number.ofNat n.modWord) then Run.fail .arrayLength
        else if d.configurable == some true || d.enumerable == some true then pure false
        else reviseWith o fun a => a.resize n.modWord (d.writable.getD true) := by
  unfold defineLength
  cases hvalue : d.value with
  | none => rfl
  | some v =>
    simp only [toWord, toNumber_primitive (hd v hvalue), Option.map_some]
    cases v.number? with
    | none => rfl
    | some n => simp only [pure_bind]

end Engine

/-! ## Walks along prototypes -/

/-- The method looks for a key in an object and up its prototypes, and ends with what it has found
or with nothing. -/
def Method.Seeks {α : Type} (μ : Ref → Method α) (k : Key) (found : Engine → Descriptor → Run α)
    (missing : Engine → Run α) : Prop :=
  ∀ (eng : Engine) (q : Ref) (m : Machine), (m.heap.object q).isProxy = false →
    eng.step (μ q) m =
      (eng.getOwnProperty q k >>= fun own =>
        own.elim (Run.heap >>= fun heap =>
          (heap.prototypeOf q).elim (missing eng) fun parent => eng.answer (μ parent))
          (found eng)) m

namespace Method

variable (k : Key) (v receiver : Value)

theorem seeks_hasProperty :
    Seeks (fun r => .hasProperty r k) k (fun _ _ => pure true) (fun _ => pure false) := by
  intro eng q m hq
  refine (Run.kind_bind_of_not_proxy hq _ _).trans ?_
  rw [Engine.ordinaryHas]
  refine congrFun (bind_congr fun own => ?_) m
  cases own with
  | some d => rfl
  | none =>
    refine bind_congr (x := Run.heap) fun heap => ?_
    cases heap.prototypeOf q <;> rfl

theorem seeks_get :
    Seeks (fun r => .get r k receiver) k
      (fun eng d => d.value.elim (eng.callGetter d.get.join receiver) pure)
      (fun _ => pure .undefined) := by
  intro eng q m hq
  refine (Run.kind_bind_of_not_proxy hq _ _).trans ?_
  rw [Engine.ordinaryGet]
  refine congrFun (bind_congr fun own => ?_) m
  cases own with
  | some d => cases hvalue : d.value <;> simp [hvalue]
  | none =>
    refine bind_congr (x := Run.heap) fun heap => ?_
    cases heap.prototypeOf q <;> rfl

theorem seeks_set :
    Seeks (fun r => .set r k v receiver) k
      (fun eng d => if d.isData then
          if d.writable == some false then pure false else eng.setOnReceiver receiver k v
        else eng.callSetter d.set.join receiver v)
      (fun eng => eng.setOnReceiver receiver k v) := by
  intro eng q m hq
  refine (Run.kind_bind_of_not_proxy hq _ _).trans ?_
  rw [Engine.ordinarySet]
  refine congrFun (bind_congr fun own => ?_) m
  cases own with
  | some d => rfl
  | none =>
    refine bind_congr (x := Run.heap) fun heap => ?_
    cases heap.prototypeOf q <;> rfl

end Method

section Reading

variable {host : Host} {n : Nat} {m : Machine} {o : Ref} {k : Key}

theorem hosted_getOwnProperty (ho : (m.heap.object o).isProxy = false) :
    (hostedEngine host (n + 1)).getOwnProperty o k m =
      .ok ((m.heap.object o).ownDescriptor k) m :=
  Run.kind_bind_of_not_proxy ho _ _

theorem hosted_ownKeys (ho : (m.heap.object o).isProxy = false) :
    (hostedEngine host (n + 1)).ownKeys o m = .ok (m.heap.object o).ownKeys m :=
  Run.kind_bind_of_not_proxy ho _ _

namespace Heap.Chain

variable {α : Type} {μ : Ref → Method α} {found : Engine → Descriptor → Run α}
  {missing : Engine → Run α} {l : List Ref} (host) (hμ : Method.Seeks μ k found missing)
  (hhost : ∀ (eng : Engine) (q : Ref), eng.hosting host (μ q) = eng.step (μ q))
  (hl : m.heap.Chain (some o) l)

include hμ hhost hl

/-- **A walk along a chain** ends at the first property, or at the end of the chain if there is
none, and takes one unit of fuel for each object that it passes. -/
theorem hosted_walk :
    ∃ passed < l.length, ∀ n, (hostedEngine host (n + 2 + passed)).answer (μ o) m =
      (m.heap.firstOwn k l).elim (missing (hostedEngine host (n + 1)))
        (found (hostedEngine host (n + 1))) m := by
  induction l generalizing o with
  | nil => cases hl
  | cons first rest ih =>
    obtain ⟨ho, -, hproxy, hrest⟩ := cons_iff.1 hl
    cases ho
    have hstep (n : Nat) : (hostedEngine host (n + 2)).answer (μ first) m =
        ((m.heap.object first).ownDescriptor k).elim
          ((m.heap.object first).prototype.elim (missing (hostedEngine host (n + 1))) fun parent =>
            (hostedEngine host (n + 1)).answer (μ parent))
          (found (hostedEngine host (n + 1))) m := by
      refine (congrFun (hhost _ _) m).trans ((hμ _ _ m hproxy).trans ?_)
      rw [Run.bind_ok (hosted_getOwnProperty hproxy)]
      cases (m.heap.object first).ownDescriptor k with
      | some d => rfl
      | none =>
        simp only [Option.elim_none, Run.bind_apply, Run.heap, prototypeOf_eq hproxy]
    rw [firstOwn_cons]
    cases hown : (m.heap.object first).ownDescriptor k with
    | some d =>
      refine ⟨0, by simp, fun n => (hstep n).trans ?_⟩
      rw [hown]
      rfl
    | none =>
      simp only [hown, Option.elim_none] at hstep
      rw [Option.none_or]
      cases hparent : (m.heap.object first).prototype with
      | none =>
        rw [hparent] at hrest hstep
        cases hrest
        exact ⟨0, by simp, hstep⟩
      | some parent =>
        rw [hparent] at hrest hstep
        obtain ⟨passed, hpassed, hwalk⟩ := ih hrest
        refine ⟨passed + 1, by simpa using hpassed, fun n => ?_⟩
        rw [show n + 2 + (passed + 1) = n + 1 + passed + 2 by omega]
        refine (hstep _).trans ?_
        rw [show n + 1 + passed + 1 = n + 2 + passed by omega]
        exact hwalk n

/-- The same walk with fuel for the whole chain. -/
theorem hosted_walk_of_lt (hn : l.length < n) :
    ∃ n', n ≤ n' + l.length ∧ (hostedEngine host n).answer (μ o) m =
      (m.heap.firstOwn k l).elim (missing (hostedEngine host n'))
        (found (hostedEngine host n')) m := by
  obtain ⟨passed, hpassed, hwalk⟩ := hosted_walk host hμ hhost hl
  refine ⟨n - passed - 1, by omega, ?_⟩
  have hrun := hwalk (n - passed - 2)
  rw [show n - passed - 2 + 2 + passed = n by omega,
    show n - passed - 2 + 1 = n - passed - 1 by omega] at hrun
  exact hrun

end Heap.Chain

/-- The chain is walked to the first object that has the key. -/
theorem hosted_hasProperty {l : List Ref} (hl : m.heap.Chain (some o) l) (hn : l.length < n) :
    (hostedEngine host n).hasProperty o k m = .ok (m.heap.firstOwn k l).isSome m := by
  obtain ⟨n', -, hwalk⟩ :=
    hl.hosted_walk_of_lt host (Method.seeks_hasProperty k) (fun _ _ => rfl) hn
  refine hwalk.trans ?_
  cases m.heap.firstOwn k l <;> rfl

/-- The value that is found along the chain is read, or undefined if there is none. -/
theorem hosted_getFor {l : List Ref} (hl : m.heap.Chain (some o) l) (hn : l.length < n)
    (hd : ∀ d, m.heap.firstOwn k l = some d → d.value.isSome = true) (receiver : Value) :
    (hostedEngine host n).getFor o k receiver m =
      .ok (((m.heap.firstOwn k l).bind Descriptor.value).getD .undefined) m := by
  obtain ⟨n', -, hwalk⟩ :=
    hl.hosted_walk_of_lt host (Method.seeks_get k receiver) (fun _ _ => rfl) hn
  refine hwalk.trans ?_
  cases hfirst : m.heap.firstOwn k l with
  | none => rfl
  | some d =>
    obtain ⟨v, hv⟩ := Option.isSome_iff_exists.1 (hd d hfirst)
    simp only [Option.elim_some, Option.bind_some, hv]
    rfl

/-- A field that no object of the chain has is none. -/
theorem hosted_field?_none {l : List Ref} (hl : m.heap.Chain (some o) l) (hn : l.length < n)
    (hd : m.heap.firstOwn k l = none) : (hostedEngine host n).field? o k m = .ok none m := by
  simp only [Engine.field?, Run.bind_apply, hosted_hasProperty hl hn, hd, Option.isSome_none]
  rfl

/-- A field whose first descriptor along the chain has a value is that value. -/
theorem hosted_field?_some {l : List Ref} (hl : m.heap.Chain (some o) l) (hn : l.length < n)
    {d : Descriptor} {v : Value} (hd : m.heap.firstOwn k l = some d) (hv : d.value = some v) :
    (hostedEngine host n).field? o k m = .ok (some v) m := by
  have hsome (e : Descriptor) (he : m.heap.firstOwn k l = some e) : e.value.isSome = true := by
    rw [hd] at he
    cases he
    rw [hv]
    rfl
  have hget : (hostedEngine host n).getFor o k (.object o) m = .ok v m := by
    rw [hosted_getFor hl hn hsome, hd, Option.bind_some, hv]
    rfl
  simp only [Engine.field?, Run.bind_apply, hosted_hasProperty hl hn, hd, Option.isSome_some,
    if_true, Engine.get, hget]
  rfl

/-- Definition on an ordinary object. -/
theorem hosted_defineOwnProperty (ho : (m.heap.object o).Ordinary) (d : Descriptor) :
    (hostedEngine host (n + 1)).defineOwnProperty o k d m =
      Engine.reviseObject o (fun a => a.define? k d) m := by
  refine (Run.kind_bind_of_not_proxy ho.1 _ _).trans ?_
  simp only [Engine.ordinaryDefine, Run.bind_apply, Run.kind]
  cases hkind : m.heap.kind o with
  | array length writable => exact absurd hkind (ho.kind_ne_array _ _)
  | _ => rfl

/-- Removal from an ordinary object. -/
theorem hosted_deleteProperty (ho : (m.heap.object o).Ordinary) :
    (hostedEngine host (n + 1)).deleteProperty o k m =
      Engine.reviseObject o (fun a => a.delete? k) m := by
  refine (Run.kind_bind_of_not_proxy ho.1 _ _).trans ?_
  simp only [Engine.ordinaryDelete, Run.bind_apply, Run.kind]
  cases hkind : m.heap.kind o with
  | array length writable => exact absurd hkind (ho.kind_ne_array _ _)
  | _ => rfl

/-- A function of the host runs over the engine with one unit of fuel less. -/
theorem hosted_call {f : Ref} {body : Engine → Value → List Value → Run Value}
    (hf : m.heap.callable? (.object f) = some f) (hbody : host f = some body) (receiver : Value)
    (arguments : List Value) :
    (hostedEngine host (n + 1)).call (.object f) receiver arguments m =
      body (hostedEngine host n) receiver arguments m := by
  simp only [Engine.call, Run.bind_apply, Run.callable?, hf]
  show (hostedEngine host n).hosting host (.call f receiver arguments) m = _
  simp only [Engine.hosting, hbody]

/-- A function of the realm runs over the engine with one unit of fuel less. -/
theorem engine_call {f : Ref} {data : FunctionData} (hf : m.heap.kind f = .function data)
    (receiver : Value) (arguments : List Value) :
    (engine (n + 1)).call (.object f) receiver arguments m =
      (engine n).runFunction f receiver arguments none m := by
  have hproxy : (m.heap.object f).isProxy = false := by
    simp [Object.isProxy, show (m.heap.object f).kind = _ from hf]
  simp only [Engine.call, Run.bind_apply, Run.callable?, Heap.callable?_function hf]
  exact Run.kind_bind_of_not_proxy hproxy _ _

theorem engine_call_native {f : Ref} {data : FunctionData} {g : Native}
    (hf : m.heap.kind f = .function data) (hg : data.behaviour = .native g) (receiver : Value)
    (arguments : List Value) :
    (engine (n + 1)).call (.object f) receiver arguments m =
      (engine n).runNative g receiver arguments m := by
  rw [engine_call hf]
  simp only [Engine.runFunction, Run.bind_apply, Run.kind, hf, hg]
  rfl

end Reading

end ObjectModel
