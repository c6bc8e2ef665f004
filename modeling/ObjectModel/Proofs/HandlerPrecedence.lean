import ObjectModel.Proofs.Kinds

/-!
# Handlers answer by precedence

A handler is read once, operation after operation; only these reads can throw then.  What was read
stays with the proxy for good, so whatever is done to the handler afterwards, each trap consults
the first of its operations that the handler had, as the function that it was.

`Reads` says what reading is, `consult` what it means to prefer one operation to another, and the
`answer` functions list the operations of each trap in the order of preference, with what is made
of their results.
-/

namespace ObjectModel

open Discipline

namespace Engine

variable (eng : Engine)

/-! ## Reading -/

/-- Operations are read from a handler: for each it is asked once whether there is one, and what
there is is got once. -/
inductive Reads (handler : Ref) : List HandlerOperation → Machine →
    EStateM.Result Halt Machine (List (HandlerOperation × Value)) → Prop where
  | done (m : Machine) : Reads handler [] m (.ok [] m)
  | absent {op rest m m₁ res} (hhas : eng.hasProperty handler op.name m = .ok false m₁)
      (hrest : Reads handler rest m₁ res) : Reads handler (op :: rest) m res
  | present {op rest m m₁ m₂ f found m'} (hhas : eng.hasProperty handler op.name m = .ok true m₁)
      (hget : eng.get handler op.name m₁ = .ok f m₂)
      (hrest : Reads handler rest m₂ (.ok found m')) :
      Reads handler (op :: rest) m (.ok ((op, f) :: found) m')
  | later {op rest m m₁ m₂ f e m'} (hhas : eng.hasProperty handler op.name m = .ok true m₁)
      (hget : eng.get handler op.name m₁ = .ok f m₂)
      (hrest : Reads handler rest m₂ (.error e m')) : Reads handler (op :: rest) m (.error e m')
  | hasThrows {op rest m e m'} (hhas : eng.hasProperty handler op.name m = .error e m') :
      Reads handler (op :: rest) m (.error e m')
  | getThrows {op rest m m₁ e m'} (hhas : eng.hasProperty handler op.name m = .ok true m₁)
      (hget : eng.get handler op.name m₁ = .error e m') :
      Reads handler (op :: rest) m (.error e m')

/-- The table of traps from what was read. -/
def adaptedBy (handler : Ref) (callTraps : Option CallTraps) :
    EStateM.Result Halt Machine (List (HandlerOperation × Value)) →
      EStateM.Result Halt Machine TrapTable
  | .ok found m =>
    .ok (.adapted ⟨handler, found⟩ callTraps)
      { m with events := (derivationEvents ⟨handler, found⟩).reverse ++ m.events }
  | .error e m => .error e m

variable {eng} {handler : Ref} {ops : List HandlerOperation} {m m' : Machine}

/-- One operation is read before the rest. -/
theorem readOperations_cons (op : HandlerOperation) :
    eng.readOperations handler (op :: ops) m =
      match eng.hasProperty handler op.name m with
      | .ok false m₁ => eng.readOperations handler ops m₁
      | .ok true m₁ =>
        match eng.get handler op.name m₁ with
        | .ok f m₂ =>
          match eng.readOperations handler ops m₂ with
          | .ok found m' => .ok ((op, f) :: found) m'
          | .error e m' => .error e m'
        | .error e m' => .error e m'
      | .error e m' => .error e m' := by
  simp only [readOperations, field?, Run.bind_apply]
  cases eng.hasProperty handler op.name m with
  | error e m' => rfl
  | ok found m₁ =>
    cases found with
    | false => rfl
    | true =>
      simp only [if_true, Run.bind_apply]
      cases eng.get handler op.name m₁ with
      | error e m' => rfl
      | ok f m₂ =>
        simp only [Run.pure_apply, Run.bind_apply]
        cases eng.readOperations handler ops m₂ <;> rfl

theorem reads_readOperations :
    eng.Reads handler ops m (eng.readOperations handler ops m) := by
  induction ops generalizing m with
  | nil => exact .done m
  | cons op rest ih =>
    rw [readOperations_cons]
    cases hhas : eng.hasProperty handler op.name m with
    | error e m' => exact .hasThrows hhas
    | ok found m₁ =>
      cases found with
      | false => exact .absent hhas ih
      | true =>
        dsimp only
        cases hget : eng.get handler op.name m₁ with
        | error e m' => exact .getThrows hhas hget
        | ok f m₂ =>
          have hrest := ih (m := m₂)
          dsimp only
          cases hres : eng.readOperations handler rest m₂ with
          | error e m' => exact .later hhas hget (hres ▸ hrest)
          | ok found m' => exact .present hhas hget (hres ▸ hrest)

variable {res : EStateM.Result Halt Machine (List (HandlerOperation × Value))}

/-- Reading is what `Reads` says, and nothing else. -/
theorem reads_iff : eng.Reads handler ops m res ↔ eng.readOperations handler ops m = res := by
  constructor
  · intro h
    induction h with
    | done m => rfl
    | absent hhas _ ih => simp only [readOperations_cons, hhas, ih]
    | present hhas hget _ ih => simp only [readOperations_cons, hhas, hget, ih]
    | later hhas hget _ ih => simp only [readOperations_cons, hhas, hget, ih]
    | hasThrows hhas => simp only [readOperations_cons, hhas]
    | getThrows hhas hget => simp only [readOperations_cons, hhas, hget]
  · rintro rfl
    exact reads_readOperations

/-- What was read comes in the order of reading. -/
theorem Reads.sublist {found : List (HandlerOperation × Value)}
    (h : eng.Reads handler ops m (.ok found m')) : (found.map Prod.fst).Sublist ops := by
  generalize hres : EStateM.Result.ok found m' = res at h
  induction h generalizing found m' with
  | done m =>
    cases hres
    exact .slnil
  | absent _ _ ih => exact (ih hres).cons _
  | present _ _ _ ih =>
    cases hres
    exact (ih rfl).cons_cons _
  | later | hasThrows | getThrows => cases hres

theorem adapt_eq (callTraps : Option CallTraps) :
    eng.adapt handler callTraps m =
      adaptedBy handler callTraps (eng.readOperations handler HandlerOperation.all m) := by
  simp only [adapt, readHandler, Run.bind_apply]
  cases eng.readOperations handler HandlerOperation.all m <;> rfl

/-! ## Answering -/

section Answers

variable (eng : Engine) (h : Handler)

/-- The first operation that the handler has is used; the handler is its receiver. -/
def consult {α : Type} (trap : Trap) :
    List (HandlerOperation × ((List Value → Run Value) → Run α)) → Run α
  | [] => Run.fail (.trapUnanswerable trap)
  | (op, use) :: rest =>
    match h.operation? op with
    | some f => use (eng.call f (.object h.object))
    | none => consult trap rest

/-- The descriptor that a value describes; undefined describes none. -/
def described (v : Value) : Run (Option Descriptor) :=
  if v = .undefined then pure none else some <$> eng.toDescriptor v

def answerGetOwn (k : Key) : Run (Option Descriptor) :=
  Option.map Descriptor.complete <$> eng.consult h .getOwnPropertyDescriptor
    [(.getOwnPropertyDescriptor, fun ask => ask [k.toValue] >>= eng.described),
      (.getPropertyDescriptor, fun ask => ask [k.toValue] >>= eng.described)]

def answerDefine (k : Key) (d : Descriptor) : Run Bool :=
  eng.consult h .defineProperty
    [(.defineProperty, fun ask => do
      let description ← fromDescriptor d
      let _ ← ask [k.toValue, .object description]
      pure true)]

def answerHas (k : Key) : Run Bool :=
  eng.consult h .has
    [(.has, fun ask => Value.truthy <$> ask [k.toValue]),
      (.getPropertyDescriptor, fun ask => (decide <| · ≠ .undefined) <$> ask [k.toValue])]

def answerHasOwn (k : Key) : Run Bool :=
  eng.consult h .hasOwn
    [(.hasOwn, fun ask => Value.truthy <$> ask [k.toValue]),
      (.getOwnPropertyDescriptor, fun ask => (decide <| · ≠ .undefined) <$> ask [k.toValue])]

def answerDelete (k : Key) : Run Bool :=
  eng.consult h .deleteProperty [(.delete, fun ask => Value.truthy <$> ask [k.toValue])]

/-- What a property gives to a receiver: its value, or what its getter gives. -/
def readThrough (receiver : Value) : Option Descriptor → Run Value
  | none => pure .undefined
  | some d =>
    if d.isData then pure (d.value.getD .undefined)
    else
      match d.get with
      | some (some getter) => eng.call (.object getter) receiver []
      | _ => pure .undefined

def answerGet (k : Key) (receiver : Value) : Run Value :=
  eng.consult h .get
    [(.get, fun ask => ask [receiver, k.toValue]),
      (.getPropertyDescriptor, fun ask => do
        let key := if k = .iterator then .text "iterator" else k.toValue
        let found ← ask [key] >>= eng.described
        eng.readThrough receiver found)]

/-- The first descriptor that one of the operations gives; those that the handler lacks are passed
over. -/
def firstDescribed (key : Value) : List HandlerOperation → Run (Option Descriptor)
  | [] => pure none
  | op :: rest =>
    match h.operation? op with
    | none => firstDescribed key rest
    | some f => do
      match ← eng.call f (.object h.object) [key] >>= eng.described with
      | some d => pure (some d)
      | none => firstDescribed key rest

/-- Defines a property anew. -/
def redefine (key : Value) (d : Descriptor) : Run Bool := do
  let description ← fromDescriptor d
  match h.operation? .defineProperty with
  | some f =>
    let _ ← eng.call f (.object h.object) [key, .object description]
    pure true
  | none => Run.fail (.operationMissing .defineProperty)

/-- Assigns where the handler has no operation for it. -/
def assign (key v receiver : Value) : Option Descriptor → Run Bool
  | none => eng.redefine h key (.plain v)
  | some d =>
    if d.isData then
      if d.writable = some true then eng.redefine h key { d with value := some v } else pure false
    else
      match d.set with
      | some (some setter) => do
        let _ ← eng.call (.object setter) receiver [v]
        pure true
      | _ => pure false

def answerSet (k : Key) (v receiver : Value) : Run Bool :=
  match h.operation? .set with
  | some f => Value.truthy <$> eng.call f (.object h.object) [receiver, k.toValue, v]
  | none => do
    let found ← eng.firstDescribed h k.toValue [.getOwnPropertyDescriptor, .getPropertyDescriptor]
    eng.assign h k.toValue v receiver found

def answerOwnKeys : Run (List Key) :=
  eng.consult h .ownKeys
    [(.keys, fun ask => ask [] >>= eng.listFromArrayLike >>= eng.toPropertyKeys),
      (.getOwnPropertyNames, fun ask => ask [] >>= eng.listFromArrayLike >>= eng.toPropertyKeys)]

/-- The name alone where its descriptor is enumerable, and nothing otherwise. -/
def ifEnumerable (describe : List Value → Run Value) (name : Value) : Run (List Value) := do
  let key ← eng.toPropertyKey name
  let found ← describe [key.toValue] >>= eng.described
  pure (if found.any Descriptor.isEnumerable then [name] else [])

def answerEnumerate : Run Ref :=
  eng.consult h .enumerate
    [(.enumerate, fun ask => do
        let names ← ask [] >>= eng.listFromArrayLike
        newIterator (.list names.toArray)),
      (.iterate, fun ask => do
        match ← ask [] with
        | .object iterator => pure iterator
        | _ => Run.fail .iterateGavePrimitive),
      (.getPropertyNames, fun list => eng.consult h .enumerate
        [(.getPropertyDescriptor, fun describe => do
          let names ← list [] >>= eng.listFromArrayLike
          let kept ← names.mapM (eng.ifEnumerable describe)
          newIterator (.list kept.flatten.toArray))])]

/-- A proxy answers for its handler. -/
structure AnswersFor (p : Ref) (m : Machine) : Prop where
  getOwn : ∀ k, eng.step (.getOwnProperty p k) m = eng.answerGetOwn h k m
  define : ∀ k d, eng.step (.defineOwnProperty p k d) m = eng.answerDefine h k d m
  has : ∀ k, eng.step (.hasProperty p k) m = eng.answerHas h k m
  hasOwn : ∀ k, eng.hasOwnProperty p k m = eng.answerHasOwn h k m
  get : ∀ k receiver, eng.step (.get p k receiver) m = eng.answerGet h k receiver m
  set : ∀ k v receiver, eng.step (.set p k v receiver) m = eng.answerSet h k v receiver m
  delete : ∀ k, eng.step (.delete p k) m = eng.answerDelete h k m
  ownKeys : eng.step (.ownKeys p) m = eng.answerOwnKeys h m
  enumerate : eng.enumerate p m = eng.answerEnumerate h m

end Answers

/-! ## The derived traps -/

section Derived

variable {h : Handler} {op : HandlerOperation} {α : Type}

theorem callOperation_eq {f : Value} (hf : h.operation? op = some f) :
    eng.callOperation h op = eng.call f (.object h.object) := by
  funext arguments
  simp only [callOperation, hf]

theorem operationDescriptor_eq (key : Value) :
    eng.operationDescriptor h op key = eng.callOperation h op [key] >>= eng.described := by
  refine bind_congr fun v => ?_
  cases v <;> rfl

/-- Consulting operations is deriving a trap from one of them. -/
theorem consult_operations (trap : Trap) (ops : List HandlerOperation)
    (use : HandlerOperation → (List Value → Run Value) → Run α) :
    eng.consult h trap (ops.map fun op => (op, use op)) =
      match (ops.map Derivation.operation).find? fun d => d.requires.all h.has with
      | some (.operation op) => use op (eng.callOperation h op)
      | _ => Run.fail (.trapUnanswerable trap) := by
  induction ops with
  | nil => rfl
  | cons op rest ih =>
    simp only [List.map_cons, consult, List.find?_cons, Derivation.requires, List.all_cons,
      List.all_nil, Bool.and_true, Handler.has]
    cases hf : h.operation? op with
    | some f => simp only [Option.isSome_some, callOperation_eq hf]
    | none =>
      simp only [Option.isSome_none]
      exact ih

theorem derivedGetOwn_eq (k : Key) :
    Option.map Descriptor.complete <$> eng.derivedGetOwn h k = eng.answerGetOwn h k := by
  refine congrArg _ ?_
  refine .trans ?_ (consult_operations _ [.getOwnPropertyDescriptor, .getPropertyDescriptor]
    fun _ ask => ask [k.toValue] >>= eng.described).symm
  simp only [derivedGetOwn, operationDescriptor_eq]
  rfl

theorem derivedDefine_eq (k : Key) (d : Descriptor) :
    eng.derivedDefine h k d = eng.answerDefine h k d :=
  (consult_operations _ [.defineProperty] fun _ ask => do
    let description ← fromDescriptor d
    let _ ← ask [k.toValue, .object description]
    pure true).symm

/-- How a predicate is told from what an operation gives. -/
def holdsOf : HandlerOperation → Value → Bool
  | .getPropertyDescriptor, v | .getOwnPropertyDescriptor, v => decide (v ≠ .undefined)
  | _, v => v.truthy

theorem derivedPredicate_eq {trap : Trap} (ops : List HandlerOperation)
    (hops : trap.derivations = ops.map .operation) (k : Key) :
    eng.derivedPredicate h trap k =
      eng.consult h trap (ops.map fun op => (op, fun ask => holdsOf op <$> ask [k.toValue])) := by
  rw [consult_operations, ← hops]
  simp only [derivedPredicate, Handler.derive?]
  cases trap.derivations.find? fun d => d.requires.all h.has with
  | none => rfl
  | some derivation =>
    cases derivation with
    | operation op =>
      dsimp only
      rw [map_eq_pure_bind]
      refine bind_congr fun v => ?_
      cases op <;> cases v <;> rfl
    | enumerableNames => rfl
    | descriptors => rfl

theorem derivedGet_eq (k : Key) (receiver : Value) :
    eng.derivedGet h k receiver = eng.answerGet h k receiver := by
  simp only [derivedGet, answerGet, consult, Handler.derive?, Trap.derivations, Derivation.requires,
    List.find?_cons, List.find?_nil, List.all_cons, List.all_nil, Bool.and_true, Handler.has,
    operationDescriptor_eq, bind_assoc]
  cases hget : h.operation? .get with
  | some f => simp only [Option.isSome_some, callOperation_eq hget]
  | none =>
    cases hdescribe : h.operation? .getPropertyDescriptor with
    | none => rfl
    | some f =>
      simp only [Option.isSome_none, Option.isSome_some, callOperation_eq hdescribe]
      refine bind_congr fun v => bind_congr fun found => ?_
      cases found with
      | none => rfl
      | some d =>
        simp only [readThrough]
        split
        · rfl
        · cases d.get with
          | none => rfl
          | some getter => cases getter <;> rfl

theorem optionalDescriptor_bind (key : Value) (ops : List HandlerOperation) :
    (do
      match ← eng.optionalDescriptor h op key with
      | some d => pure (some d)
      | none => eng.firstDescribed h key ops) = eng.firstDescribed h key (op :: ops) := by
  rcases Option.eq_none_or_eq_some (h.operation? op) with hf | ⟨f, hf⟩
  · simp only [optionalDescriptor, firstDescribed, Handler.has, hf]
    rfl
  · simp only [optionalDescriptor, firstDescribed, Handler.has, hf, Option.isSome_some, if_true,
      operationDescriptor_eq, callOperation_eq hf]

theorem redefine_eq (key : Value) (d : Descriptor) :
    (do
      let description ← fromDescriptor d
      let _ ← eng.callOperation h .defineProperty [key, .object description]
      pure true) = eng.redefine h key d := by
  refine bind_congr fun description => ?_
  rcases Option.eq_none_or_eq_some (h.operation? .defineProperty) with hf | ⟨f, hf⟩
  · simp only [callOperation, hf]
    rfl
  · simp only [callOperation, hf]

theorem setThrough_eq (key : Value) (d : Descriptor) (v receiver : Value) :
    eng.setThrough h key d v receiver = eng.assign h key v receiver (some d) := by
  simp only [setThrough, assign, redefine_eq]
  split
  · by_cases hw : d.writable = some true
    · simp [hw]
    · simp [hw]
  · cases d.set with
    | none => rfl
    | some setter => cases setter <;> rfl

theorem derivedSet_eq (k : Key) (v receiver : Value) :
    eng.derivedSet h k v receiver = eng.answerSet h k v receiver := by
  simp only [derivedSet, answerSet, Handler.derive?, Trap.derivations, Derivation.requires,
    List.find?_cons, List.all_cons, List.all_nil, Bool.and_true, Handler.has]
  cases hset : h.operation? .set with
  | some f =>
    simp only [Option.isSome_some, callOperation_eq hset, map_eq_pure_bind]
  | none =>
    simp only [Option.isSome_none]
    rw [← optionalDescriptor_bind]
    simp only [bind_assoc]
    refine bind_congr fun own => ?_
    cases own with
    | some d => simp only [pure_bind, setThrough_eq]
    | none =>
      rw [← optionalDescriptor_bind]
      simp only [bind_assoc]
      refine bind_congr fun found => ?_
      cases found with
      | some d => exact setThrough_eq ..
      | none => exact redefine_eq ..

theorem derivedOwnKeys_eq : eng.derivedOwnKeys h = eng.answerOwnKeys h := by
  refine .trans ?_ (consult_operations _ [.keys, .getOwnPropertyNames]
    fun _ ask => ask [] >>= eng.listFromArrayLike >>= eng.toPropertyKeys).symm
  rfl

theorem enumerableNames_eq (names : List Value) :
    eng.enumerableNames h names = List.flatten <$>
      names.mapM (eng.ifEnumerable (eng.callOperation h .getPropertyDescriptor)) := by
  induction names with
  | nil => rfl
  | cons name rest ih =>
    simp only [enumerableNames, ih, List.mapM_cons, ifEnumerable, operationDescriptor_eq,
      map_eq_pure_bind, bind_assoc, pure_bind, List.flatten_cons]
    refine bind_congr fun key => bind_congr fun v => bind_congr fun found => ?_
    refine bind_congr fun kept => ?_
    split <;> rfl

theorem derivedEnumerate_eq : eng.derivedEnumerate h = eng.answerEnumerate h := by
  simp only [derivedEnumerate, answerEnumerate, consult, Handler.derive?, Trap.derivations,
    Derivation.requires, List.find?_cons, List.find?_nil, List.all_cons, List.all_nil, Bool.and_true,
    Handler.has]
  cases henumerate : h.operation? .enumerate with
  | some f => simp only [Option.isSome_some, operationNames, callOperation_eq henumerate]
  | none =>
    cases hiterate : h.operation? .iterate with
    | some f => exact congrArg (fun ask => ask [] >>= _) (callOperation_eq hiterate)
    | none =>
      cases hnames : h.operation? .getPropertyNames with
      | none => rfl
      | some f =>
        cases hdescribe : h.operation? .getPropertyDescriptor with
        | none => rfl
        | some g =>
          simp only [Option.isSome_none, Option.isSome_some, Bool.and_true, operationNames,
            enumerableNames_eq, callOperation_eq hnames, callOperation_eq hdescribe,
            map_eq_pure_bind, bind_assoc, pure_bind]

end Derived

theorem answersFor {p target : Ref} {h : Handler} {callTraps : Option CallTraps}
    (hkind : m.heap.kind p = .proxy target (.adapted h callTraps)) : eng.AnswersFor h p m where
  getOwn k := by
    rw [← derivedGetOwn_eq]
    simp only [step, Run.bind_apply, Run.kind, hkind, proxyGetOwn, map_eq_pure_bind]
  define k d := by
    rw [← derivedDefine_eq]
    simp only [step, Run.bind_apply, Run.kind, hkind, proxyDefine]
  has k := by
    simp only [step, Run.bind_apply, Run.kind, hkind, proxyHas, proxyPredicate]
    rw [derivedPredicate_eq [.has, .getPropertyDescriptor] rfl]
    rfl
  hasOwn k := by
    refine .trans ?_ (congrFun
      (derivedPredicate_eq [.hasOwn, .getOwnPropertyDescriptor] rfl k) m)
    have htrap : (TrapTable.adapted h callTraps).has .hasOwn = true := rfl
    simp only [hasOwnProperty, proxyHasOwn?, Run.bind_apply, Run.kind, hkind]
    rw [if_pos htrap]
    simp only [Run.bind_apply, proxyPredicate]
    cases eng.derivedPredicate h .hasOwn k m <;> rfl
  get k receiver := by
    rw [← derivedGet_eq]
    simp only [step, Run.bind_apply, Run.kind, hkind, proxyGet]
  set k v receiver := by
    rw [← derivedSet_eq]
    simp only [step, Run.bind_apply, Run.kind, hkind, proxySet]
  delete k := by
    simp only [step, Run.bind_apply, Run.kind, hkind, proxyDelete, proxyPredicate]
    rw [derivedPredicate_eq [.delete] rfl]
    rfl
  ownKeys := by
    rw [← derivedOwnKeys_eq]
    simp only [step, Run.bind_apply, Run.kind, hkind, proxyOwnKeys]
  enumerate := by
    rw [← derivedEnumerate_eq]
    simp only [enumerate, proxyEnumerate?, Run.bind_apply, Run.kind, hkind]
    cases eng.derivedEnumerate h m <;> rfl

/-! ## Making proxies -/

/-- The object is a proxy whose traps come from what was read from the handler. -/
def MadeFrom (eng : Engine) (handler : Ref) (p : Ref) (m : Machine) : Prop :=
  ∃ m₁ m₂ found target callTraps,
    eng.Reads handler HandlerOperation.all m₁ (.ok found m₂) ∧
      m.heap.kind p = .proxy target (.adapted ⟨handler, found⟩ callTraps)

theorem kind_newProxy {target p : Ref} {traps : TrapTable}
    (h : newProxy target traps m = .ok p m') : m'.heap.kind p = .proxy target traps := by
  cases h
  exact congrArg Object.kind (m.heap.object_allocate_self _)

theorem madeFrom_of_adapt {callTraps : Option CallTraps} {target p : Ref}
    (h : (eng.adapt handler callTraps >>= newProxy target) m = .ok p m') :
    eng.MadeFrom handler p m' := by
  rw [Run.bind_apply, adapt_eq] at h
  cases hres : eng.readOperations handler HandlerOperation.all m with
  | error e m₁ =>
    rw [hres] at h
    cases h
  | ok found m₁ =>
    rw [hres] at h
    exact ⟨m, m₁, found, target, callTraps, reads_iff.2 hres, kind_newProxy h⟩

theorem madeFrom_of_proxyCreate {proto : Value} {p : Ref}
    (h : eng.proxyCreate (.object handler) proto m = .ok p m') : eng.MadeFrom handler p m' := by
  cases proto with
  | object r => exact madeFrom_of_adapt h
  | null => exact madeFrom_of_adapt h
  | undefined => exact madeFrom_of_adapt h
  | _ => cases h

theorem madeFrom_of_proxyCreateFunction {call : Value} {construct : Option Value} {p : Ref}
    (h : eng.proxyCreateFunction (.object handler) call construct m = .ok p m') :
    eng.MadeFrom handler p m' := by
  simp only [proxyCreateFunction, requireHandler, Run.bind_apply, Run.pure_apply, Run.callable?] at h
  cases hcall : m.heap.callable? call with
  | none =>
    rw [hcall] at h
    cases h
  | some f =>
    rw [hcall] at h
    cases construct with
    | none => exact madeFrom_of_adapt h
    | some g =>
      simp only [Run.bind_apply, Run.callable?] at h
      cases hconstruct : m.heap.callable? g with
      | none =>
        rw [hconstruct] at h
        cases h
      | some f =>
        rw [hconstruct] at h
        exact madeFrom_of_adapt h

end Engine

/-- **Handlers answer by precedence.**  Making traps reads the operations that the handler has, in
their order and each once, and throws only what a read throws.  A proxy that is made holds what was
read, and at every later moment of the history each of its traps consults the first operation in
its order of preference that was read. -/
theorem handler_answers_by_precedence :
    (∀ (eng : Engine) (handler : Ref) (callTraps : Option CallTraps) (m : Machine),
      ∃ res, eng.Reads handler HandlerOperation.all m res ∧
        (∀ found m', res = .ok found m' →
          (found.map Prod.fst).Sublist HandlerOperation.all) ∧
        eng.adapt handler callTraps m = Engine.adaptedBy handler callTraps res) ∧
      (∀ (eng : Engine) (handler p : Ref) (m m' : Machine),
        ((∃ proto, eng.proxyCreate (.object handler) proto m = .ok p m') ∨
          ∃ call construct, eng.proxyCreateFunction (.object handler) call construct m = .ok p m') →
        eng.MadeFrom handler p m') ∧
      ∀ {m m' : Machine} {p target : Ref} {h : Handler} {callTraps : Option CallTraps},
        m.Attained → m.heap.kind p = .proxy target (.adapted h callTraps) →
          Relation.ReflTransGen Machine.Before m m' → ∀ eng : Engine, eng.AnswersFor h p m' := by
  refine ⟨fun eng handler callTraps m => ?_, ?_, ?_⟩
  · have hreads : eng.Reads handler HandlerOperation.all m _ := Engine.reads_readOperations
    exact ⟨_, hreads, fun found m' hres => (hres ▸ hreads).sublist, Engine.adapt_eq _⟩
  · rintro eng handler p m m' (⟨proto, hmade⟩ | ⟨call, construct, hmade⟩)
    · exact Engine.madeFrom_of_proxyCreate hmade
    · exact Engine.madeFrom_of_proxyCreateFunction hmade
  · intro m m' p target h callTraps hm hkind hbefore eng
    have hlive : p.index < m.size := Heap.live_of_kind (by simp [hkind])
    have honward := (onward_of_before hm hbefore).kinds p hlive
    rw [hkind] at honward
    exact Engine.answersFor honward.proxy

/-- Makes a handler that inherits the operation `has` and has a number for `keys`, and a proxy from
it. -/
def Expr.inheritingHandler : Expr :=
  .operation (.control (.sequence [0, 1, 2]))
    [.operation (.create (.object none [(0, 1)]))
        [.value (.text "has"),
          .operation (.create (.function 0 ⟨"has", none, false, none, 0, [1], "has", false⟩))
            [.value .undefined, .value (.bool true)] none] (some "base"),
      .operation (.create (.object (some 0) [(1, 2)]))
        [.name "base", .value (.text "keys"), .value (.ofNat 5)] (some "handler"),
      .operation (.extend (.proxyCreate 0 1)) [.name "handler", .value .null] (some "proxy")] none

def Machine.inheritingHandler : Machine :=
  Run.final ((engine 30).answer (.evaluate none .inheritingHandler)
    (Session.initialMachine ⟨true, false⟩))

theorem Machine.attained_inheritingHandler : Machine.inheritingHandler.Attained := by
  have hliteral : ∀ r, ¬ Expr.inheritingHandler.RefersTo r := by
    intro r
    simp [Expr.inheritingHandler, Value.ofNat]
  exact .evaluate 30 hliteral (.initial _)

/-- The realm after the inherited operation was deleted. -/
def Machine.operationDeleted : Machine :=
  Run.final ((engine 30).answer (.delete ⟨46⟩ "has") Machine.inheritingHandler)

/-- What was read from a handler, if an object was made from it. -/
def Kind.handler? : Kind → Option (Ref × List (HandlerOperation × Value))
  | .proxy _ (.adapted h _) => some (h.object, h.operations)
  | _ => none

theorem Kind.eq_of_handler? {kind : Kind} {object : Ref} {ops : List (HandlerOperation × Value)}
    (h : kind.handler? = some (object, ops)) :
    ∃ target callTraps, kind = .proxy target (.adapted ⟨object, ops⟩ callTraps) := by
  cases kind with
  | proxy target traps =>
    cases traps with
    | adapted handler callTraps =>
      cases h
      exact ⟨target, callTraps, rfl⟩
    | _ => cases h
  | _ => cases h

/-- After the deletion the handler has the operation no more; the proxy still consults the function
that it was. -/
theorem handler_answers_by_precedence_inheritingHandler :
    (∃ p m', (engine 30).proxyCreate (.object ⟨48⟩) .null Machine.inheritingHandler = .ok p m' ∧
      (engine 30).MadeFrom ⟨48⟩ p m') ∧
    Machine.inheritingHandler.Attained ∧
    Relation.ReflTransGen Machine.Before Machine.inheritingHandler Machine.operationDeleted ∧
    Run.given? ((engine 30).hasProperty ⟨48⟩ "has" Machine.inheritingHandler) = some true ∧
    Run.given? ((engine 30).hasProperty ⟨48⟩ "has" Machine.operationDeleted) = some false ∧
    (engine 30).AnswersFor ⟨⟨48⟩, [(.keys, .ofNat 5), (.has, .object ⟨47⟩)]⟩ ⟨50⟩
      Machine.operationDeleted := by
  have hcreate : Run.given? ((engine 30).proxyCreate (.object ⟨48⟩) .null
      Machine.inheritingHandler) = some ⟨52⟩ := by decide +kernel
  have hkind : (Machine.inheritingHandler.heap.kind ⟨50⟩).handler? =
      some (⟨48⟩, [(.keys, .ofNat 5), (.has, .object ⟨47⟩)]) := by decide +kernel
  have hhad : Run.given? ((engine 30).hasProperty ⟨48⟩ "has" Machine.inheritingHandler) =
      some true := by decide +kernel
  have hlost : Run.given? ((engine 30).hasProperty ⟨48⟩ "has" Machine.operationDeleted) =
      some false := by decide +kernel
  have hsize : 46 < Machine.inheritingHandler.size := by decide +kernel
  have hm := Machine.attained_inheritingHandler
  have hbefore : Machine.inheritingHandler.Before Machine.operationDeleted := by
    refine .answer 30 (.delete ⟨46⟩ "has") (fun r hr => ?_) hm
    cases hr
    exact hsize
  -- from here on the machines are not evaluated any more
  generalize Machine.operationDeleted = m' at *
  generalize Machine.inheritingHandler = m at *
  obtain ⟨target, callTraps, hproxy⟩ := Kind.eq_of_handler? hkind
  have hcreate := Run.eq_ok_of_given? hcreate
  exact ⟨⟨_, _, hcreate, handler_answers_by_precedence.2.1 _ _ _ _ _ (.inl ⟨_, hcreate⟩)⟩, hm,
    .single hbefore, hhad, hlost,
    handler_answers_by_precedence.2.2 hm hproxy (.single hbefore) (engine 30)⟩

end ObjectModel
