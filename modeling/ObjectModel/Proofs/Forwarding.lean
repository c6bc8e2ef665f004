import ObjectModel.Proofs.Description
import ObjectModel.Proofs.HandlerPrecedence

/-!
# Forwarding handlers

A handler can stand for another object: its operations are functions of the host that do to the
object what is asked of the proxy.  `Heap.Forwarding` says so of a handler in the heap, before a
proxy is made from it, and `Machine.Reflects` of the proxy that was made.

Such a proxy and the object are apart only by what passes between them: a descriptor is described
on the one side and read on the other.  `Run.Adds` says that a run gives an answer and leaves
nothing behind but further objects and events.
-/

namespace ObjectModel

/-! ## Functions that forward -/

namespace Engine

variable (object : Ref) (eng : Engine)

/-- The first descriptor of a key from an object up its prototypes. -/
def lookupWithin (k : Key) : Nat → Option Ref → Run (Option Descriptor)
  | _, none => pure none
  | 0, some _ => Run.outOfFuel
  | fuel + 1, some o => do
    match ← eng.getOwnProperty o k with
    | some d => pure (some d)
    | none => lookupWithin k fuel ((← Run.heap).prototypeOf o)

/-- Describes the object's own property. -/
def forwardOwn (_receiver : Value) (arguments : List Value) : Run Value := do
  let k ← eng.toPropertyKey (arguments.getD 0 .undefined)
  fromDescriptor? (← eng.getOwnProperty object k)

/-- Describes the property that the object has or inherits. -/
def forwardLookup (_receiver : Value) (arguments : List Value) : Run Value := do
  let k ← eng.toPropertyKey (arguments.getD 0 .undefined)
  fromDescriptor? (← eng.lookupWithin k eng.limit (some object))

/-- Defines the described property on the object, or throws. -/
def forwardDefine (_receiver : Value) (arguments : List Value) : Run Value := do
  let k ← eng.toPropertyKey (arguments.getD 0 .undefined)
  let d ← eng.toDescriptor (arguments.getD 1 .undefined)
  eng.definePropertyOrThrow object k d
  pure .undefined

/-- Deletes the object's property. -/
def forwardDelete (_receiver : Value) (arguments : List Value) : Run Value := do
  let k ← eng.toPropertyKey (arguments.getD 0 .undefined)
  return .bool (← eng.deleteProperty object k)

/-- Lists the object's own keys. -/
def forwardNames (_receiver : Value) (_arguments : List Value) : Run Value := do
  let ks ← eng.ownKeys object
  return .object (← newArray (ks.map Key.toValue))

end Engine

/-- The function that forwards an operation to an object. -/
def forwarder? (object : Ref) : HandlerOperation → Option (Engine → Value → List Value → Run Value)
  | .getOwnPropertyDescriptor => some (Engine.forwardOwn object)
  | .getPropertyDescriptor => some (Engine.forwardLookup object)
  | .defineProperty => some (Engine.forwardDefine object)
  | .delete => some (Engine.forwardDelete object)
  | .getOwnPropertyNames => some (Engine.forwardNames object)
  | _ => none

/-- The handler has the given operations, own or inherited, and no others; they forward to the
object. -/
structure Heap.Forwarding (h : Heap) (host : Host) (handler object : Ref) (l : List Ref)
    (ops : List HandlerOperation) : Prop where
  chain : h.Chain (some handler) l
  present : ∀ op ∈ ops, ∃ d f, h.firstOwn op.name l = some d ∧ d.value = some (.object f) ∧
    h.callable? (.object f) = some f ∧ host f = forwarder? object op
  absent : ∀ op, op ∉ ops → h.firstOwn op.name l = none

/-- What was read from a handler forwards to the object. -/
structure Handler.Forwards (hd : Handler) (h : Heap) (host : Host) (object : Ref)
    (ops : List HandlerOperation) : Prop where
  present : ∀ op ∈ ops, ∃ f, hd.operation? op = some (.object f) ∧
    h.callable? (.object f) = some f ∧ host f = forwarder? object op
  absent : ∀ op, op ∉ ops → hd.operation? op = none

/-! ## Making the proxy -/

theorem HandlerOperation.mem_all (op : HandlerOperation) : op ∈ all := by cases op <;> decide

/-- The values of the operations that a handler has. -/
def Heap.operationsAt (h : Heap) (l : List Ref) (ops : List HandlerOperation) :
    List (HandlerOperation × Value) :=
  ops.filterMap fun op => ((h.firstOwn op.name l).bind Descriptor.value).map fun v => (op, v)

theorem Heap.lookup_operationsAt (h : Heap) (l : List Ref) {ops : List HandlerOperation}
    {op : HandlerOperation} (hop : op ∈ ops) :
    (h.operationsAt l ops).lookup op = (h.firstOwn op.name l).bind Descriptor.value := by
  induction ops with
  | nil => cases hop
  | cons first rest ih =>
    rw [operationsAt, List.filterMap_cons]
    by_cases hfirst : op = first
    · subst hfirst
      cases hvalue : (h.firstOwn op.name l).bind Descriptor.value with
      | some v => simp
      | none =>
        rw [Option.map_none, List.lookup_eq_none_iff]
        rintro ⟨op', v⟩ hmem
        obtain ⟨op'', -, hv⟩ := List.mem_filterMap.1 hmem
        obtain ⟨v', hv', heq⟩ := Option.map_eq_some_iff.1 hv
        cases heq
        have hne : op ≠ op' := by
          rintro rfl
          rw [hvalue] at hv'
          cases hv'
        simpa using hne
    · have hrest := ih ((List.mem_cons.1 hop).resolve_left hfirst)
      cases (h.firstOwn first.name l).bind Descriptor.value with
      | none => exact hrest
      | some v =>
        rw [Option.map_some, List.lookup_cons, beq_false_of_ne hfirst]
        exact hrest

section Making

variable {host : Host} {n : Nat} {m : Machine} {handler object : Ref} {l : List Ref}
  {ops : List HandlerOperation}

theorem hosted_readOperations (hl : m.heap.Chain (some handler) l) (hn : l.length < n)
    (hdata : ∀ op : HandlerOperation, ∀ d, m.heap.firstOwn op.name l = some d → d.value.isSome) :
    (hostedEngine host n).readOperations handler ops m = .ok (m.heap.operationsAt l ops) m := by
  induction ops with
  | nil => rfl
  | cons op rest ih =>
    simp only [Engine.readOperations, Run.bind_apply, Heap.operationsAt, List.filterMap_cons]
    cases hd : m.heap.firstOwn op.name l with
    | none =>
      simp only [hosted_field?_none hl hn hd]
      exact ih
    | some d =>
      obtain ⟨v, hv⟩ := Option.isSome_iff_exists.1 (hdata op d hd)
      simp only [hosted_field?_some hl hn hd hv, Run.bind_apply, ih, Option.bind_some, hv,
        Option.map_some]
      rfl

theorem Heap.Forwarding.forwards (h : m.heap.Forwarding host handler object l ops) :
    (Handler.mk handler (m.heap.operationsAt l HandlerOperation.all)).Forwards m.heap host object
      ops := by
  refine ⟨fun op hop => ?_, fun op hop => ?_⟩
  · obtain ⟨d, f, hd, hv, hcallable, hhost⟩ := h.present op hop
    refine ⟨f, ?_, hcallable, hhost⟩
    rw [Handler.operation?, m.heap.lookup_operationsAt l op.mem_all, hd]
    exact hv
  · rw [Handler.operation?, m.heap.lookup_operationsAt l op.mem_all, h.absent op hop]
    rfl

theorem Machine.Grown.forwarding {m' : Machine} (hgrown : m.Grown m')
    (h : m.heap.Forwarding host handler object l ops) :
    m'.heap.Forwarding host handler object l ops where
  chain := hgrown.chain h.chain
  present op hop := by
    obtain ⟨d, f, hd, hv, hcallable, hhost⟩ := h.present op hop
    exact ⟨d, f, (hgrown.firstOwn h.chain _).trans hd, hv, hgrown.callable? hcallable, hhost⟩
  absent op hop := (hgrown.firstOwn h.chain _).trans (h.absent op hop)

theorem Machine.Grown.forwards {m' : Machine} {hd : Handler} (hgrown : m.Grown m')
    (h : hd.Forwards m.heap host object ops) : hd.Forwards m'.heap host object ops where
  present op hop := by
    obtain ⟨f, hf, hcallable, hhost⟩ := h.present op hop
    exact ⟨f, hf, hgrown.callable? hcallable, hhost⟩
  absent := h.absent

/-- Reading a forwarding handler changes nothing but the events. -/
theorem hosted_adapt (h : m.heap.Forwarding host handler object l ops) (hn : l.length < n) :
    ∃ hd events, (hostedEngine host n).adapt handler none m =
        .ok (.adapted hd none) { m with events := events ++ m.events } ∧
      hd.Forwards m.heap host object ops := by
  have hdata (op : HandlerOperation) (d : Descriptor)
      (hd : m.heap.firstOwn op.name l = some d) : d.value.isSome := by
    by_cases hop : op ∈ ops
    · obtain ⟨d', f, hd', hv, -⟩ := h.present op hop
      rw [hd'] at hd
      cases hd
      rw [hv]
      rfl
    · rw [h.absent op hop] at hd
      cases hd
  have hread : (hostedEngine host n).readOperations handler HandlerOperation.all m = _ :=
    hosted_readOperations h.chain hn hdata
  let hd : Handler := ⟨handler, m.heap.operationsAt l HandlerOperation.all⟩
  refine ⟨hd, (Engine.derivationEvents hd).reverse, ?_, h.forwards⟩
  rw [Engine.adapt_eq, hread]
  rfl

/-- A proxy is made from a forwarding handler, and only objects and events are added. -/
theorem hosted_proxyCreate (h : m.heap.Forwarding host handler object l ops) (hn : l.length < n)
    (proto : Option Ref) :
    ∃ p m' target hd, (hostedEngine host n).proxyCreate (.object handler) (.ofRef? proto) m =
        .ok p m' ∧
      m.Grown m' ∧ m'.heap.kind p = .proxy target (.adapted hd none) ∧
      hd.Forwards m'.heap host object ops := by
  let m₁ := m.withHeap (m.heap.allocate (.new proto .ordinary)).2
  have hgrown₁ : m.Grown m₁ := .allocate m _
  obtain ⟨hd, events, hadapt, hforwards⟩ := hosted_adapt (hgrown₁.forwarding h) hn
  let m₂ : Machine := { m₁ with events := events ++ m₁.events }
  let target : Ref := ⟨m.size⟩
  let m₃ := m₂.withHeap (m₂.heap.allocate (.new none (.proxy target (.adapted hd none)))).2
  have hgrown₃ : m₁.Grown m₃ := .trans ⟨#[], events, by simp [m₂]⟩ (.allocate m₂ _)
  have hmade : Engine.newProxy target (.adapted hd none) m₂ = .ok ⟨m₂.size⟩ m₃ := rfl
  refine ⟨⟨m₂.size⟩, m₃, target, hd, ?_, hgrown₁.trans hgrown₃, Engine.kind_newProxy hmade,
    hgrown₃.forwards hforwards⟩
  cases proto with
  | none => exact (Run.bind_ok hadapt).trans hmade
  | some r => exact (Run.bind_ok hadapt).trans hmade

end Making

namespace Machine

variable {m : Machine} {r : Ref} {o : Object} (hlive : r.index < m.size)
  (hkind : o.kind = (m.heap.object r).kind)

include hlive hkind

theorem kind_replace (p : Ref) : (m.replace r o).heap.kind p = m.heap.kind p := by
  show ((m.replace r o).heap.object p).kind = _
  rw [object_replace hlive]
  split
  · next hp =>
    rw [hkind, hp]
    rfl
  · rfl

theorem callable?_replace {f : Ref} (hf : m.heap.callable? (.object f) = some f) :
    (m.replace r o).heap.callable? (.object f) = some f :=
  Heap.callable?_of_kinds (Nat.le_of_eq (size_replace m r o).symm)
    (fun p _ => kind_replace hlive hkind p) hf

theorem chain_replace (hprototype : o.prototype = (m.heap.object r).prototype) {p : Option Ref}
    {l : List Ref} (hl : m.heap.Chain p l) : (m.replace r o).heap.Chain p l := by
  refine hl.mono (Nat.le_of_eq (size_replace m r o).symm) (fun p _ => kind_replace hlive hkind p)
    fun p _ => ?_
  rw [object_replace hlive]
  split
  · next hp => rw [hprototype, hp]
  · rfl

end Machine

/-! ## Runs that add objects -/

/-- The run gives an answer and adds only objects and events. -/
def Run.Adds {α : Type} (m : Machine) (x : Run α) (a : α) : Prop :=
  ∃ m', x m = .ok a m' ∧ m.Grown m'

namespace Run.Adds

variable {α β : Type} {m : Machine} {x : Run α} {a : α}

theorem of_same (h : x m = .ok a m) : Adds m x a := ⟨m, h, .refl m⟩

theorem congr {y : Run α} (hy : Adds m y a) (h : x m = y m) : Adds m x a := by
  obtain ⟨m', hy, hgrown⟩ := hy
  exact ⟨m', h.trans hy, hgrown⟩

theorem bind_congr {y : Run α} {f : α → Run β} {b : β} (h : x m = y m)
    (hy : Adds m (y >>= f) b) : Adds m (x >>= f) b := by
  refine hy.congr ?_
  rw [Run.bind_apply, Run.bind_apply, h]

protected theorem bind {f : α → Run β} {b : β} (hx : Adds m x a)
    (hf : ∀ m', m.Grown m' → Adds m' (f a) b) : Adds m (x >>= f) b := by
  obtain ⟨m₁, hx, hgrown₁⟩ := hx
  obtain ⟨m₂, hf, hgrown₂⟩ := hf m₁ hgrown₁
  exact ⟨m₂, (Run.bind_ok hx).trans hf, hgrown₁.trans hgrown₂⟩

protected theorem map (f : α → β) (hx : Adds m x a) : Adds m (f <$> x) (f a) := by
  obtain ⟨m', hx, hgrown⟩ := hx
  refine ⟨m', ?_, hgrown⟩
  rw [map_eq_pure_bind, Run.bind_ok hx]
  rfl

end Run.Adds

/-! ## Proxies that reflect an object -/

/-- The descriptor is one of a property: its functions can be called, and it is not of both
kinds. -/
structure Descriptor.Sayable (h : Heap) (d : Descriptor) : Prop where
  callable : d.Callable h
  single : (d.isAccessor && d.isData) = false

/-- The proxy reflects the object: what was read from its handler forwards to it, and what is
described on the way is not disturbed by the prototype of objects. -/
structure Machine.Reflects (m : Machine) (host : Host) (hd : Handler) (ops : List HandlerOperation)
    (l : List Ref) (object p : Ref) : Prop where
  kind : ∃ target callTraps, m.heap.kind p = .proxy target (.adapted hd callTraps)
  forwards : hd.Forwards m.heap host object ops
  live : object.index < m.size
  ordinary : (m.heap.object object).Ordinary
  free : m.heap.FieldFree l

namespace Machine.Reflects

variable {m m' : Machine} {host : Host} {hd : Handler} {ops : List HandlerOperation} {l : List Ref}
  {object p : Ref} {n : Nat} {k : Key} {op : HandlerOperation}

theorem grown (h : m.Reflects host hd ops l object p) (hgrown : m.Grown m') :
    m'.Reflects host hd ops l object p where
  kind := by
    obtain ⟨target, callTraps, hkind⟩ := h.kind
    have hlive : p.index < m.size := Heap.live_of_kind (by simp [hkind])
    exact ⟨target, callTraps, (congrArg Object.kind (hgrown.object hlive)).trans hkind⟩
  forwards := hgrown.forwards h.forwards
  live := Nat.lt_of_lt_of_le h.live hgrown.size_le
  ordinary := by
    rw [hgrown.object h.live]
    exact h.ordinary
  free := hgrown.fieldFree h.free

/-- The proxy goes on reflecting the object after another took its place that is of the same kind
and has no field that the prototype of objects lacked. -/
theorem replace (h : m.Reflects host hd ops l object p) {o : Object}
    (hkind : o.kind = (m.heap.object object).kind)
    (hprototype : o.prototype = (m.heap.object object).prototype)
    (hfields : object ∈ l → ∀ k ∈ Descriptor.fieldNames, o.ownDescriptor k = none) :
    (m.replace object o).Reflects host hd ops l object p := by
  refine ⟨?_, ⟨fun op hop => ?_, h.forwards.absent⟩, ?_, ?_,
    ⟨chain_replace h.live hkind hprototype h.free.chain, fun k hk => ?_⟩⟩
  · obtain ⟨target, callTraps, hp⟩ := h.kind
    exact ⟨target, callTraps, (kind_replace h.live hkind p).trans hp⟩
  · obtain ⟨f, hf, hcallable, hhost⟩ := h.forwards.present op hop
    exact ⟨f, hf, callable?_replace h.live hkind hcallable, hhost⟩
  · rw [size_replace]
    exact h.live
  · rw [object_replace h.live, if_pos rfl]
    exact h.ordinary.of_kind hkind
  · have habsent := h.free.absent k hk
    rw [Heap.firstOwn, List.findSome?_eq_none_iff] at habsent ⊢
    intro r hr
    rw [object_replace h.live]
    split
    · next heq => exact hfields (heq ▸ hr) k hk
    · exact habsent r hr

/-- An operation of the handler runs the function that forwards it. -/
theorem forward (h : m.Reflects host hd ops l object p) (hop : op ∈ ops)
    {body : Engine → Value → List Value → Run Value} (hbody : forwarder? object op = some body) :
    ∃ f, hd.operation? op = some f ∧ ∀ m', m.Grown m' → ∀ receiver arguments,
      (hostedEngine host (n + 1)).call f receiver arguments m' =
        body (hostedEngine host n) receiver arguments m' := by
  obtain ⟨f, hf, hcallable, hhost⟩ := h.forwards.present op hop
  exact ⟨.object f, hf, fun m' hgrown receiver arguments =>
    hosted_call (hgrown.callable? hcallable) (hhost.trans hbody) receiver arguments⟩

end Machine.Reflects

/-! ## What forwarding functions do -/

section Forwarders

variable {m : Machine} {host : Host} {l : List Ref} {object r : Ref} {n : Nat} {k : Key}
  {receiver : Value}

/-- A new description is read as what it describes. -/
theorem hosted_toDescriptor_fresh (hfree : m.heap.FieldFree l) (hn : l.length + 1 < n)
    {d : Descriptor} (hd : d.Sayable m.heap) :
    (hostedEngine host n).toDescriptor (.object ⟨m.size⟩)
        (m.withHeap (m.heap.allocate d.describing).2) =
      .ok d (m.withHeap (m.heap.allocate d.describing).2) := by
  have hgrown := Machine.Grown.allocate m d.describing
  have hobject : (m.heap.allocate d.describing).2.object ⟨m.size⟩ = d.describing :=
    m.heap.object_allocate_self _
  have hlive : m.size < (m.withHeap (m.heap.allocate d.describing).2).size := by
    rw [Machine.size_withHeap, Heap.size_allocate]
    exact Nat.lt_succ_self _
  exact hosted_toDescriptor hobject hlive (hgrown.fieldFree hfree) hn
    (fun f hf => hgrown.callable? (hd.callable f hf)) hd.single

/-- A description is understood as what it describes. -/
theorem adds_described (hfree : m.heap.FieldFree l) (hn : l.length + 1 < n) {o : Option Descriptor}
    (ho : ∀ d, o = some d → d.Sayable m.heap) :
    Run.Adds m (Engine.fromDescriptor? o >>= (hostedEngine host n).described) o := by
  cases o with
  | none => exact .of_same rfl
  | some d =>
    refine ⟨_, (Run.bind_ok (fromDescriptor?_some d m)).trans ?_, .allocate m d.describing⟩
    rw [Engine.described, if_neg (by simp), map_eq_pure_bind,
      Run.bind_ok (hosted_toDescriptor_fresh hfree hn (ho d rfl))]
    rfl

/-- What is described is told from what is not. -/
theorem adds_fromDescriptor? (o : Option Descriptor) :
    Run.Adds m ((decide <| · ≠ Value.undefined) <$> Engine.fromDescriptor? o) o.isSome := by
  cases o with
  | none => exact .of_same rfl
  | some d =>
    rw [map_eq_pure_bind]
    exact ⟨_, Run.bind_ok (fromDescriptor?_some d m), .allocate m d.describing⟩

/-- What the run gives describes the property, or is undefined for none.  It is understood as the
property if that can be said, and told from none in any case. -/
structure Machine.Describes (m : Machine) (eng : Engine) (x : Run Value) (o : Option Descriptor) :
    Prop where
  described : (∀ d, o = some d → d.Sayable m.heap) → Run.Adds m (x >>= eng.described) o
  isSome : Run.Adds m ((decide <| · ≠ Value.undefined) <$> x) o.isSome

theorem Machine.Describes.of_fromDescriptor? (hfree : m.heap.FieldFree l) (hn : l.length + 1 < n)
    {o : Option Descriptor} {x : Run Value} (hx : x m = Engine.fromDescriptor? o m) :
    m.Describes (hostedEngine host n) x o where
  described ho := .bind_congr hx (adds_described hfree hn ho)
  isSome := by
    have hsome : Run.Adds m ((decide <| · ≠ Value.undefined) <$> Engine.fromDescriptor? o) _ :=
      adds_fromDescriptor? o
    rw [map_eq_pure_bind] at hsome ⊢
    exact .bind_congr hx hsome

theorem forwardOwn_apply (ho : (m.heap.object object).Ordinary) (hk : k.Canonical) :
    Engine.forwardOwn object (hostedEngine host (n + 1)) receiver [k.toValue] m =
      Engine.fromDescriptor? ((m.heap.object object).ownDescriptor k) m := by
  simp only [Engine.forwardOwn, List.getD_cons_zero, Engine.toPropertyKey_toValue hk,
    Run.bind_apply, Run.pure_apply, hosted_getOwnProperty ho.1]

theorem lookupWithin_apply {o : Option Ref} {chain : List Ref} (hl : m.heap.Chain o chain)
    {fuel : Nat} (hfuel : chain.length ≤ fuel) :
    (hostedEngine host (n + 1)).lookupWithin k fuel o m = .ok (m.heap.firstOwn k chain) m := by
  induction hl generalizing fuel with
  | done => cases fuel <;> rfl
  | @link o rest hlive hproxy _ ih =>
    rw [List.length_cons] at hfuel
    obtain ⟨fuel, rfl⟩ : ∃ fuel', fuel = fuel' + 1 := ⟨fuel - 1, by omega⟩
    simp only [Engine.lookupWithin, Run.bind_apply, hosted_getOwnProperty hproxy,
      Heap.firstOwn_cons]
    cases (m.heap.object o).ownDescriptor k with
    | some d => rfl
    | none =>
      simp only [Run.bind_apply, Run.heap, Heap.prototypeOf_eq hproxy]
      exact ih (by omega)

theorem forwardLookup_apply {chain : List Ref} (hl : m.heap.Chain (some object) chain)
    (hn : chain.length ≤ n + 1) (hk : k.Canonical) :
    Engine.forwardLookup object (hostedEngine host (n + 1)) receiver [k.toValue] m =
      Engine.fromDescriptor? (m.heap.firstOwn k chain) m := by
  simp only [Engine.forwardLookup, List.getD_cons_zero, Engine.toPropertyKey_toValue hk,
    Run.bind_apply, Run.pure_apply]
  rw [show (hostedEngine host (n + 1)).limit = n + 1 from rfl, lookupWithin_apply hl hn]

/-- The error of a fault is of the fault's kind. -/
theorem fail_apply {α : Type} (fault : Fault) (m : Machine) :
    ∃ v m', (Run.fail fault : Run α) m = .error (.thrown v) m' ∧ m.Grown m' ∧
      Session.errorKind? m'.heap v = some fault.kind := by
  let error : Object :=
    { Object.new (some (Intrinsic.ofErrorKind fault.kind).ref) .error with
      properties := PropertyTable.empty.insert "message" (.hidden (.text fault.message)) }
  have hobject : (m.heap.allocate error).2.object ⟨m.size⟩ = error :=
    m.heap.object_allocate_self _
  refine ⟨.object ⟨m.size⟩, { m with
    heap := (m.heap.allocate error).2
    events := .failed fault.kind fault.message :: m.events }, rfl,
      ⟨#[error], [.failed fault.kind fault.message], rfl⟩, ?_⟩
  simp only [Session.errorKind?, hobject]
  have hfind : ErrorKind.all.find? (fun kind => error.prototype ==
      some (Intrinsic.ofErrorKind kind).ref) = some fault.kind := by
    show ErrorKind.all.find? (fun kind => some (Intrinsic.ofErrorKind fault.kind).ref ==
      some (Intrinsic.ofErrorKind kind).ref) = _
    cases fault.kind <;> decide
  exact hfind

/-- The definition was made on the object, or it was refused with a type error. -/
def Machine.Defines {α : Type} (m : Machine) (object : Ref) (k : Key) (d : Descriptor) (x : Run α)
    (a : α) : Prop :=
  (∃ o m', (m.heap.object object).define? k d = some o ∧ x m = .ok a m' ∧
      (m.replace object o).Grown m') ∨
    ∃ v m', (m.heap.object object).define? k d = none ∧ x m = .error (.thrown v) m' ∧
      m.Grown m' ∧ Session.errorKind? m'.heap v = some .typeError

theorem Machine.Defines.bind {α β : Type} {d : Descriptor} {x : Run α} {a : α}
    (h : m.Defines object k d x a) {f : α → Run β} {b : β} (hf : f a = pure b) :
    m.Defines object k d (x >>= f) b := by
  rcases h with ⟨o, m', hdefine, hx, hgrown⟩ | ⟨v, m', hdefine, hx, hgrown, hkind⟩
  · refine .inl ⟨o, m', hdefine, (Run.bind_ok hx).trans ?_, hgrown⟩
    rw [hf]
    rfl
  · exact .inr ⟨v, m', hdefine, Run.bind_error hx, hgrown, hkind⟩

theorem Machine.Defines.congr {α : Type} {d : Descriptor} {x y : Run α} {a : α}
    (hy : m.Defines object k d y a) (h : x m = y m) : m.Defines object k d x a := by
  unfold Defines
  rw [h]
  exact hy

/-- A run that goes on where objects were added. -/
theorem Machine.Defines.of_grown {α : Type} {d : Descriptor} {x y : Run α} {a : α} {m' : Machine}
    (h : m'.Defines object k d y a) (hgrown : m.Grown m') (hlive : object.index < m.size)
    (hsame : x m = y m') : m.Defines object k d x a := by
  have hobject := hgrown.object hlive
  rcases h with ⟨o, m'', hdefine, hy, hgrown'⟩ | ⟨v, m'', hdefine, hy, hgrown', hkind⟩
  · refine .inl ⟨o, m'', hobject ▸ hdefine, hsame.trans hy, ?_⟩
    exact (hgrown.modify hlive _).trans hgrown'
  · exact .inr ⟨v, m'', hobject ▸ hdefine, hsame.trans hy, hgrown.trans hgrown', hkind⟩

/-- What follows objects that were added. -/
theorem Machine.Defines.after {α β : Type} {d : Descriptor} {x : Run α} {f : α → Run β} {a : α}
    {b : β} {m' : Machine} (hx : x m = .ok a m') (hgrown : m.Grown m')
    (hlive : object.index < m.size) (h : m'.Defines object k d (f a) b) :
    m.Defines object k d (x >>= f) b :=
  h.of_grown hgrown hlive (Run.bind_ok hx)

theorem definePropertyOrThrow_defines (ho : (m.heap.object object).Ordinary) (d : Descriptor) :
    m.Defines object k d ((hostedEngine host (n + 1)).definePropertyOrThrow object k d) () := by
  have hdefine : (hostedEngine host (n + 1)).defineOwnProperty object k d m = _ :=
    hosted_defineOwnProperty ho d
  rw [Engine.reviseObject_apply] at hdefine
  cases hrevised : (m.heap.object object).define? k d with
  | some o =>
    rw [hrevised] at hdefine
    exact .inl ⟨o, _, hrevised, Run.bind_ok hdefine, .refl _⟩
  | none =>
    rw [hrevised] at hdefine
    obtain ⟨v, m', hfail, hgrown, hkind⟩ :=
      fail_apply (α := Unit) (.propertyNotDefined (m.heap.displayKey k)) m
    exact .inr ⟨v, m', hrevised, (Run.bind_ok hdefine).trans hfail, hgrown, hkind⟩

/-- A description that is forwarded is defined. -/
theorem forwardDefine_defines (ho : (m.heap.object object).Ordinary)
    (hlive : object.index < m.size) (hfree : m.heap.FieldFree l) (hn : l.length < n)
    (hk : k.Canonical) {d : Descriptor} (hd : d.Sayable m.heap) :
    m.Defines object k d (Engine.fromDescriptor d >>= fun r =>
      Engine.forwardDefine object (hostedEngine host (n + 1)) receiver [k.toValue, .object r])
        .undefined := by
  have hgrown := Machine.Grown.allocate m d.describing
  refine .after (fromDescriptor_apply d m) hgrown hlive ?_
  have hread : (hostedEngine host (n + 1)).toDescriptor (.object ⟨m.size⟩) _ = _ :=
    hosted_toDescriptor_fresh hfree (Nat.succ_lt_succ hn) hd
  have ho' : ((m.withHeap (m.heap.allocate d.describing).2).heap.object object).Ordinary := by
    rw [hgrown.object hlive]
    exact ho
  simp only [Engine.forwardDefine, List.getD_cons_zero, Engine.toPropertyKey_toValue hk, pure_bind]
  refine .after hread (.refl _) (Nat.lt_of_lt_of_le hlive hgrown.size_le) ?_
  exact (definePropertyOrThrow_defines ho' d).bind rfl

end Forwarders

/-! ## The reflected object through the operations of the handler -/

namespace Machine.Reflects

variable {m : Machine} {host : Host} {hd : Handler} {ops : List HandlerOperation} {l : List Ref}
  {object p : Ref} {n : Nat} {k : Key}

theorem answers (h : m.Reflects host hd ops l object p) (eng : Engine) :
    eng.AnswersFor hd p m := by
  obtain ⟨target, callTraps, hkind⟩ := h.kind
  exact Engine.answersFor hkind

/-- The handler gives the object's own property. -/
theorem describes (h : m.Reflects host hd ops l object p)
    (hop : .getOwnPropertyDescriptor ∈ ops) (hn : l.length ≤ n) (hk : k.Canonical) :
    ∃ f, hd.operation? .getOwnPropertyDescriptor = some f ∧ ∀ receiver,
      m.Describes (hostedEngine host (n + 2))
        ((hostedEngine host (n + 2)).call f receiver [k.toValue])
        ((m.heap.object object).ownDescriptor k) := by
  obtain ⟨f, hf, hcall⟩ := h.forward (n := n + 1) hop rfl
  refine ⟨f, hf, fun receiver => ?_⟩
  have hrun := (hcall m (.refl m) receiver [k.toValue]).trans (forwardOwn_apply h.ordinary hk)
  exact .of_fromDescriptor? h.free (by omega) hrun

/-- The handler gives the first property along the object's chain. -/
theorem describesFirst (h : m.Reflects host hd ops l object p)
    (hop : .getPropertyDescriptor ∈ ops) (hn : l.length ≤ n) (hk : k.Canonical) {chain : List Ref}
    (hchain : m.heap.Chain (some object) chain) (hlength : chain.length ≤ n) :
    ∃ f, hd.operation? .getPropertyDescriptor = some f ∧ ∀ receiver,
      m.Describes (hostedEngine host (n + 2))
        ((hostedEngine host (n + 2)).call f receiver [k.toValue]) (m.heap.firstOwn k chain) := by
  obtain ⟨f, hf, hcall⟩ := h.forward (n := n + 1) hop rfl
  refine ⟨f, hf, fun receiver => ?_⟩
  have hrun := (hcall m (.refl m) receiver [k.toValue]).trans
    (forwardLookup_apply hchain (by omega) hk)
  exact .of_fromDescriptor? h.free (by omega) hrun

/-- The handler defines the property on the object. -/
theorem defines (h : m.Reflects host hd ops l object p) (hop : .defineProperty ∈ ops)
    (hn : l.length < n) (hk : k.Canonical) {d : Descriptor} (hsay : d.Sayable m.heap) :
    ∃ f, hd.operation? .defineProperty = some f ∧ ∀ receiver,
      m.Defines object k d (do
        let r ← Engine.fromDescriptor d
        let _ ← (hostedEngine host (n + 2)).call f receiver [k.toValue, .object r]
        pure true) true := by
  obtain ⟨f, hf, hcall⟩ := h.forward (n := n + 1) hop rfl
  refine ⟨f, hf, fun receiver => ?_⟩
  have hdefine : m.Defines object k d (Engine.fromDescriptor d >>= fun r =>
      Engine.forwardDefine object (hostedEngine host (n + 1)) receiver [k.toValue, .object r])
        .undefined := forwardDefine_defines h.ordinary h.live h.free hn hk hsay
  refine (hdefine.bind (f := fun _ => pure true) rfl).congr ?_
  rw [bind_assoc, Run.bind_ok (fromDescriptor_apply d m), Run.bind_ok (fromDescriptor_apply d m),
    Run.bind_apply, Run.bind_apply, hcall _ (.allocate m d.describing)]

end Machine.Reflects

/-! ## Forwarding handlers exist -/

/-- In a new realm the prototype of objects has no property named like a field. -/
theorem fieldFree_initialMachine (options : Options) :
    (Session.initialMachine options).heap.FieldFree [Intrinsic.objectPrototype.ref] := by
  obtain ⟨hproxy, hprototype, habsent⟩ :
      ((Session.initialMachine options).heap.object Intrinsic.objectPrototype.ref).isProxy = false ∧
        ((Session.initialMachine options).heap.object Intrinsic.objectPrototype.ref).prototype =
          none ∧
        ∀ k ∈ Descriptor.fieldNames, (Session.initialMachine options).heap.firstOwn k
          [Intrinsic.objectPrototype.ref] = none := by
    obtain ⟨_ | _, _ | _⟩ := options <;> decide +kernel
  have hlive := (sound_initialMachine (D := .places) (Nat.zero_le _) options).2
  refine ⟨.link (Nat.lt_of_lt_of_le (by decide) hlive) hproxy ?_, habsent⟩
  rw [hprototype]
  exact .done

/-- A function of the host, as an object. -/
def Object.hostFunction : Object :=
  .new (some Intrinsic.functionPrototype.ref) (.function ⟨.native .nothing, .empty, none⟩)

/-- A handler whose functions stand from a place on. -/
def Object.forwardingHandler (start : Nat) (ops : List HandlerOperation) : Object :=
  { Object.new none .ordinary with
    properties := Engine.plainTable
      (ops.zipIdx.map fun e => (.ofString e.1.name, .object ⟨start + e.2⟩)) }

/-- A handler, the object that it stands for, and its functions. -/
def forwarderObjects (place : Nat) (ops : List HandlerOperation) (o : Object) : Array Object :=
  #[.forwardingHandler (place + 2) ops, o] ++ Array.replicate ops.length Object.hostFunction

/-- The machine with a handler that forwards to a new object. -/
def Machine.withForwarder (m : Machine) (ops : List HandlerOperation) (o : Object) : Machine :=
  m.withHeap { m.heap with objects := m.heap.objects ++ forwarderObjects m.size ops o }

/-- The host of the handler's functions. -/
def Host.ofForwarder (place : Nat) (ops : List HandlerOperation) : Host := fun r =>
  if place + 2 ≤ r.index then (ops[r.index - (place + 2)]?).bind (forwarder? ⟨place + 1⟩)
  else none

theorem HandlerOperation.name_inj {op op' : HandlerOperation}
    (h : Key.ofString op.name = Key.ofString op'.name) : op = op' := by
  have hnodup : (all.map fun op => Key.ofString op.name).Nodup := by decide
  exact List.inj_on_of_nodup_map hnodup op.mem_all op'.mem_all h

namespace Object

variable {ops : List HandlerOperation} {op : HandlerOperation}

theorem ownDescriptor_forwardingHandler (start : Nat) (ops : List HandlerOperation) (k : Key) :
    (forwardingHandler start ops).ownDescriptor k =
      ((Engine.plainTable (ops.zipIdx.map fun e =>
        (.ofString e.1.name, .object ⟨start + e.2⟩))).find? k).map Property.toDescriptor := rfl

theorem forwardingHandler_present (hops : ops.Nodup) (start : Nat) {i : Nat}
    (hi : ops[i]? = some op) :
    (forwardingHandler start ops).ownDescriptor op.name =
      some (.plain (.object ⟨start + i⟩)) := by
  have hnodup : ((ops.zipIdx.map fun e =>
      (Key.ofString e.1.name, Value.object ⟨start + e.2⟩)).map Prod.fst).Nodup := by
    have hkeys : (ops.zipIdx.map fun e =>
        (Key.ofString e.1.name, Value.object ⟨start + e.2⟩)).map Prod.fst =
          (ops.zipIdx.map Prod.fst).map fun op => Key.ofString op.name := by
      rw [List.map_map, List.map_map]
      rfl
    rw [hkeys, List.zipIdx_map_fst]
    exact hops.map fun _ _ => HandlerOperation.name_inj
  have hmem : (Key.ofString op.name, Value.object ⟨start + i⟩) ∈ ops.zipIdx.map fun e =>
      (Key.ofString e.1.name, Value.object ⟨start + e.2⟩) :=
    List.mem_map.2 ⟨(op, i), List.mem_zipIdx_iff_getElem?.2 hi, rfl⟩
  rw [ownDescriptor_forwardingHandler, find?_plainTable_of_mem hnodup hmem]
  rfl

theorem forwardingHandler_absent (start : Nat) (hop : op ∉ ops) :
    (forwardingHandler start ops).ownDescriptor op.name = none := by
  rw [ownDescriptor_forwardingHandler, Option.map_eq_none_iff, Option.eq_none_iff_forall_ne_some]
  intro p hp
  obtain ⟨v, hmem, -⟩ := find?_plainTable hp
  obtain ⟨⟨op', i⟩, hmem', heq⟩ := List.mem_map.1 hmem
  have hname : Key.ofString op'.name = Key.ofString op.name := congrArg Prod.fst heq
  rw [← HandlerOperation.name_inj hname] at hop
  exact hop (List.mem_of_getElem? (List.mem_zipIdx_iff_getElem?.1 hmem'))

end Object

namespace Machine

variable (m : Machine) (ops : List HandlerOperation) (o : Object)

theorem grown_withForwarder : m.Grown (m.withForwarder ops o) := ⟨_, [], rfl⟩

theorem size_withForwarder : m.size + 2 ≤ (m.withForwarder ops o).size := by
  show m.heap.objects.size + 2 ≤ (m.heap.objects ++ forwarderObjects m.size ops o).size
  rw [Array.size_append, forwarderObjects, Array.size_append]
  show _ ≤ _ + (2 + _)
  omega

theorem object_withForwarder (i : Nat) :
    (m.withForwarder ops o).heap.object ⟨m.size + i⟩ =
      (forwarderObjects m.size ops o).getD i default := by
  simp only [withForwarder, withHeap, Heap.object, Array.getD_eq_getD_getElem?]
  rw [Array.getElem?_append_right (by simp [Machine.size])]
  simp [Machine.size]

theorem object_withForwarder_handler :
    (m.withForwarder ops o).heap.object ⟨m.size⟩ = .forwardingHandler (m.size + 2) ops := by
  refine (m.object_withForwarder ops o 0).trans ?_
  rw [forwarderObjects, Array.getD_eq_getD_getElem?, Array.getElem?_append_left (by simp)]
  rfl

theorem object_withForwarder_object :
    (m.withForwarder ops o).heap.object ⟨m.size + 1⟩ = o := by
  refine (m.object_withForwarder ops o 1).trans ?_
  rw [forwarderObjects, Array.getD_eq_getD_getElem?, Array.getElem?_append_left (by simp)]
  rfl

theorem object_withForwarder_function {i : Nat} (hi : i < ops.length) :
    (m.withForwarder ops o).heap.object ⟨m.size + 2 + i⟩ = .hostFunction := by
  rw [show (⟨m.size + 2 + i⟩ : Ref) = ⟨m.size + (2 + i)⟩ by rw [Nat.add_assoc],
    object_withForwarder, forwarderObjects, Array.getD_eq_getD_getElem?,
    Array.getElem?_append_right (by simp)]
  simp [hi]

/-- The handler forwards to the object. -/
theorem forwarding_withForwarder (hops : ops.Nodup) :
    (m.withForwarder ops o).heap.Forwarding (.ofForwarder m.size ops) ⟨m.size⟩ ⟨m.size + 1⟩
      [⟨m.size⟩] ops := by
  have hhandler := m.object_withForwarder_handler ops o
  have hfirst (k : Key) : (m.withForwarder ops o).heap.firstOwn k [⟨m.size⟩] =
      (Object.forwardingHandler (m.size + 2) ops).ownDescriptor k := by
    rw [Heap.firstOwn, List.findSome?_singleton, hhandler]
  refine ⟨.link ?_ ?_ ?_, fun op hop => ?_, fun op hop => ?_⟩
  · exact Nat.lt_of_lt_of_le (Nat.lt_add_of_pos_right (by decide)) (m.size_withForwarder ops o)
  · rw [hhandler]
    rfl
  · rw [hhandler]
    exact .done
  · obtain ⟨i, hi⟩ := List.getElem?_of_mem hop
    have hlength : i < ops.length := (List.getElem?_eq_some_iff.1 hi).1
    have hkind := congrArg Object.kind (m.object_withForwarder_function ops o hlength)
    refine ⟨_, ⟨m.size + 2 + i⟩, (hfirst _).trans (Object.forwardingHandler_present hops _ hi), rfl,
      Heap.callable?_function hkind, ?_⟩
    rw [Host.ofForwarder, if_pos (Nat.le_add_right _ _), Nat.add_sub_cancel_left, hi]
    rfl
  · rw [hfirst]
    exact Object.forwardingHandler_absent _ hop

end Machine

end ObjectModel
