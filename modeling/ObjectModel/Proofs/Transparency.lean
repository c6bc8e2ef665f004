import ObjectModel.Proofs.Enumeration
import ObjectModel.Proofs.Fuel

/-!
# Proxies without traps cannot be seen

A proxy without traps hands every request on to its target.  So a stack of such proxies answers as
the object under it does, and leaves the same machine behind, where that object has a chain of
prototypes without proxies (`proxies_unseen`).  An assignment needs an argument: it is handed down
with the outermost proxy for its receiver, and so comes back through the stack for the own property
and its definition.

A proxy takes fuel for every request that it hands on, so both sides are compared for all amounts of
fuel (`Run.Alike`).
-/

namespace ObjectModel

/-! ## Stacks of proxies -/

namespace Heap

/-- The first object is a proxy of the second, without traps. -/
def Covers (h : Heap) (p target : Ref) : Prop := (h.kind p).forwards? = some (target, [])

theorem Covers.table {h : Heap} {p target : Ref} (hp : h.Covers p target) :
    ∃ table, h.kind p = .proxy target (.functions table) ∧ ∀ trap, table.lookup trap = none := by
  unfold Covers at hp
  cases hkind : h.kind p with
  | proxy target' traps =>
    rw [hkind] at hp
    obtain ⟨rfl, htraps⟩ := Prod.mk.inj (Option.some_inj.1 hp)
    have hnone (trap : Trap) : traps.has trap = false := by
      have hmem : trap ∈ Trap.all := by cases trap <;> decide
      simpa using List.filter_eq_nil_iff.1 htraps trap hmem
    cases traps with
    | functions table =>
      exact ⟨table, rfl, fun trap =>
        Option.not_isSome_iff_eq_none.1 (Bool.eq_false_iff.1 (hnone trap))⟩
    | adapted handler callTraps => cases hnone .get
    | enumeratesTarget => cases hnone .enumerate
  | _ =>
    rw [hkind] at hp
    cases hp

/-- The proxies, from the outermost on, lie on top of an object. -/
inductive Stack (h : Heap) (t : Ref) : Ref → List Ref → Prop where
  | base : Stack h t t []
  | cover {p target : Ref} {ps : List Ref} (hp : h.Covers p target) (hrest : Stack h t target ps) :
      Stack h t p (p :: ps)

end Heap

/-- A method that a proxy without traps hands on to its target. -/
inductive Method.Forwarded : {α : Type} → (Ref → Method α) → Prop where
  | getOwnProperty (k : Key) : Forwarded fun r => .getOwnProperty r k
  | defineOwnProperty (k : Key) (d : Descriptor) : Forwarded fun r => .defineOwnProperty r k d
  | hasProperty (k : Key) : Forwarded fun r => .hasProperty r k
  | get (k : Key) (receiver : Value) : Forwarded fun r => .get r k receiver
  | set (k : Key) (v receiver : Value) : Forwarded fun r => .set r k v receiver
  | delete (k : Key) : Forwarded fun r => .delete r k
  | ownKeys : Forwarded .ownKeys
  | setPrototypeOf (p : Option Ref) : Forwarded fun r => .setPrototypeOf r p

section Stacks

variable {α : Type} {m m' : Machine} {t p target : Ref} {ps : List Ref} {c : Nat}

theorem Heap.Covers.answer (hp : m.heap.Covers p target) {μ : Ref → Method α}
    (hμ : Method.Forwarded μ) (n : Nat) :
    (engine (n + 1)).answer (μ p) m = (engine n).answer (μ target) m := by
  obtain ⟨table, hkind, hlookup⟩ := hp.table
  cases hμ <;> refine (Run.kind_bind_of_proxy hkind _ _).trans ?_ <;>
    simp only [Engine.proxyGetOwn, Engine.proxyDefine, Engine.proxyHas, Engine.proxyPredicate,
      Engine.proxyGet, Engine.proxySet, Engine.proxyDelete, Engine.proxyOwnKeys,
      Engine.proxySetPrototypeOf, hlookup] <;> rfl

namespace Heap.Stack

/-- **A stack answers a method that is handed on as the object under it does.** -/
protected theorem answer (hstack : m.heap.Stack t p ps) {μ : Ref → Method α}
    (hμ : Method.Forwarded μ) (hc : ps.length ≤ c) :
    Run.Alike c (fun n => (engine n).answer (μ t)) (fun n => (engine n).answer (μ p)) m := by
  induction hstack generalizing c with
  | base => exact .answer (μ t)
  | @cover p target ps hp _ ih =>
    rw [List.length_cons] at hc
    refine ⟨fun n n' hn => ?_, fun n => ?_⟩
    · obtain ⟨n', rfl⟩ : ∃ k, n' = k + 1 := ⟨n' - 1, by omega⟩
      rw [hp.answer hμ]
      exact (ih (Nat.le_refl _)).up n n' (by omega)
    · cases n with
      | zero => exact .outOfFuel m _
      | succ n =>
        rw [hp.answer hμ]
        exact ((ih (Nat.le_refl _)).down n).trans ((engine_lags (Nat.le_succ n)).2 (μ t) m)

theorem mono (h : m.KeepsProxies m') (hstack : m.heap.Stack t p ps) : m'.heap.Stack t p ps := by
  induction hstack with
  | base => exact .base
  | @cover p _ _ hp _ ih =>
    obtain ⟨table, hkind, hlookup⟩ := hp.table
    have hlive : p.index < m.size := live_of_kind (by simp [hkind])
    refine .cover ?_ ih
    rw [Covers, (h.proxies p hlive _ _).2 hkind, ← hkind]
    exact hp

variable {h : Heap} {ps' : List Ref} (ht : (h.object t).isProxy = false)

include ht

protected theorem unique (hstack : h.Stack t p ps) (hstack' : h.Stack t p ps') : ps = ps' := by
  induction hstack generalizing ps' with
  | base =>
    cases hstack' with
    | base => rfl
    | cover hp _ =>
      obtain ⟨table, hkind, -⟩ := hp.table
      exact absurd hkind (kind_ne_proxy ht _ _)
  | cover hp _ ih =>
    obtain ⟨table, hkind, -⟩ := hp.table
    cases hstack' with
    | base => exact absurd hkind (kind_ne_proxy ht _ _)
    | cover hp' hrest =>
      obtain ⟨table', hkind', -⟩ := hp'.table
      cases hkind.symm.trans hkind'
      rw [ih hrest]

omit ht in
theorem exists_of_mem (hstack : h.Stack t p ps) {q : Ref} (hq : q ∈ ps) :
    q.index < h.objects.size ∧ ∃ ps', h.Stack t q ps' ∧ ps'.length ≤ ps.length := by
  induction hstack with
  | base => cases hq
  | cover hp hrest ih =>
    rcases List.mem_cons.1 hq with rfl | hq
    · obtain ⟨table, hkind, hlookup⟩ := hp.table
      exact ⟨live_of_kind (by simp [hkind]), _, .cover hp hrest, Nat.le_refl _⟩
    · obtain ⟨hlive, ps', hps', hlength⟩ := ih hq
      exact ⟨hlive, ps', hps', Nat.le_succ_of_le hlength⟩

/-- No proxy comes twice. -/
protected theorem nodup (hstack : h.Stack t p ps) : ps.Nodup := by
  induction hstack with
  | base => exact List.nodup_nil
  | cover hp hrest ih =>
    refine List.nodup_cons.2 ⟨fun hmem => ?_, ih⟩
    obtain ⟨-, ps', hps', hlength⟩ := hrest.exists_of_mem hmem
    rw [Stack.unique ht hps' (.cover hp hrest), List.length_cons] at hlength
    exact absurd hlength (Nat.not_succ_le_self _)

/-- Under the proxies there is the object. -/
protected theorem root (hstack : h.Stack t p ps) : h.root p = t := by
  have hlength : ps.length ≤ h.objects.size :=
    length_le_size (Stack.nodup ht hstack) fun q hq => (hstack.exists_of_mem hq).1
  unfold root
  generalize h.objects.size = fuel at hlength
  induction hstack generalizing fuel with
  | base =>
    cases fuel with
    | zero => rfl
    | succ fuel =>
      unfold rootWithin
      split
      · next hkind => exact absurd hkind (kind_ne_proxy ht _ _)
      · rfl
  | cover hp _ ih =>
    obtain ⟨table, hkind, -⟩ := hp.table
    obtain ⟨fuel, rfl⟩ : ∃ k, fuel = k + 1 :=
      ⟨fuel - 1, by rw [List.length_cons] at hlength; omega⟩
    rw [rootWithin]
    simp only [hkind]
    exact ih fuel (Nat.le_of_succ_le_succ hlength)

end Heap.Stack

end Stacks

/-! ## Walks along prototypes -/

/-- An object that is no proxy answers for its own property from the heap. -/
theorem eq_of_getOwnProperty {n : Nat} {m m' : Machine} {o : Ref} {k : Key}
    {own : Option Descriptor} (ho : (m.heap.object o).isProxy = false)
    (hres : (engine n).getOwnProperty o k m = .ok own m') :
    own = (m.heap.object o).ownDescriptor k ∧ m' = m := by
  cases n with
  | zero => cases hres
  | succ n =>
    cases (engine_getOwnProperty ho).symm.trans hres
    exact ⟨rfl, rfl⟩

theorem engine_ownKeys {n : Nat} {m : Machine} {o : Ref}
    (ho : (m.heap.object o).isProxy = false) :
    (engine (n + 1)).ownKeys o m = .ok (m.heap.object o).ownKeys m := by
  rw [← hostedEngine_none]
  exact hosted_ownKeys ho

theorem engine_keepEnumerable {n : Nat} {m : Machine} {o : Ref}
    (ho : (m.heap.object o).isProxy = false) (ks : List Key) :
    (engine (n + 1)).keepEnumerable o ks m =
      .ok (ks.filter fun k => ((m.heap.object o).ownDescriptor k).any Descriptor.isEnumerable)
        m := by
  rw [← hostedEngine_none]
  exact keepEnumerable_apply ho ks

theorem eq_of_ownKeys {n : Nat} {m m' : Machine} {o : Ref} {ks : List Key}
    (ho : (m.heap.object o).isProxy = false) (hres : (engine n).ownKeys o m = .ok ks m') :
    m' = m := by
  cases n with
  | zero => cases hres
  | succ n =>
    cases (engine_ownKeys ho).symm.trans hres
    rfl

namespace Heap.Chain

variable {α : Type} {m : Machine} {q : Ref} {l : List Ref} {k : Key} {c : Nat}
  {μ μ' : Ref → Method α} {found found' : Engine → Descriptor → Run α}
  {missing missing' : Engine → Run α}

/-- **Two walks are alike if they are at the first property and at the end of the chain.** -/
theorem alike_walk (hμ : Method.Seeks μ k found missing) (hμ' : Method.Seeks μ' k found' missing')
    (hl : m.heap.Chain (some q) l)
    (hfound : ∀ d, m.heap.firstOwn k l = some d →
      Run.Alike c (fun n => found (engine n) d) (fun n => found' (engine n) d) m)
    (hmissing : Run.Alike c (fun n => missing (engine n)) (fun n => missing' (engine n)) m) :
    Run.Alike c (fun n => (engine n).answer (μ q)) (fun n => (engine n).answer (μ' q)) m := by
  induction l generalizing q with
  | nil => cases hl
  | cons o rest ih =>
    obtain ⟨ho, -, hproxy, hrest⟩ := cons_iff.1 hl
    cases ho
    refine .step (.congr (fun n => hμ (engine n) o m hproxy)
      (fun n => hμ' (engine n) o m hproxy) ?_)
    refine (Run.Alike.answer (.getOwnProperty o k)).bind fun n own m' hres => ?_
    obtain ⟨rfl, rfl⟩ := eq_of_getOwnProperty hproxy hres
    rw [firstOwn_cons] at hfound
    cases hown : (m'.heap.object o).ownDescriptor k with
    | some d => exact hfound d (by rw [hown]; rfl)
    | none =>
      rw [hown, Option.none_or] at hfound
      refine (Run.Alike.const Run.heap).bind fun _ heap _ hheap => ?_
      cases hheap
      rw [prototypeOf_eq hproxy]
      cases hparent : (m'.heap.object o).prototype with
      | none => exact hmissing
      | some parent =>
        rw [hparent] at hrest
        exact ih hrest hfound

/-- A walk settles if it does at the first property and at the end of the chain. -/
theorem settles_walk (hμ : Method.Seeks μ k found missing) {R : Machine → Prop}
    (hl : m.heap.Chain (some q) l)
    (hfound : ∀ d, m.heap.firstOwn k l = some d → Run.Settles R (fun n => found (engine n) d) m)
    (hmissing : Run.Settles R (fun n => missing (engine n)) m) :
    Run.Settles R (fun n => (engine n).answer (μ q)) m := by
  induction l generalizing q with
  | nil => cases hl
  | cons o rest ih =>
    obtain ⟨ho, -, hproxy, hrest⟩ := cons_iff.1 hl
    cases ho
    refine .step (.congr (fun n => hμ (engine n) o m hproxy) ?_)
    refine .bind_ok (fun n => engine_getOwnProperty hproxy) ?_
    rw [firstOwn_cons] at hfound
    cases hown : (m.heap.object o).ownDescriptor k with
    | some d => exact hfound d (by rw [hown]; rfl)
    | none =>
      rw [hown, Option.none_or] at hfound
      have hheap : Run.heap m = .ok m.heap m := rfl
      refine .bind_ok (fun _ => hheap) ?_
      rw [prototypeOf_eq hproxy]
      cases hparent : (m.heap.object o).prototype with
      | none => exact hmissing
      | some parent =>
        rw [hparent] at hrest
        exact ih hrest hfound

end Heap.Chain

/-! ## Queries -/

/-- What an object can be asked. -/
inductive Query where
  | getPrototypeOf
  | setPrototypeOf (p : Option Ref)
  | isExtensible
  | preventExtensions
  | getOwn (k : Key)
  | define (k : Key) (d : Descriptor)
  | has (k : Key)
  | get (k : Key)
  /-- An assignment with the object itself for its receiver. -/
  | set (k : Key) (v : Value)
  | delete (k : Key)
  | ownKeys
  | hasOwn (k : Key)
  | enumerableOwnKeys
  | isArray
  | isCallable

inductive Answer where
  | prototype (p : Option Ref)
  | verdict (b : Bool)
  | descriptor (d : Option Descriptor)
  | value (v : Value)
  | keys (ks : List Key)
  deriving DecidableEq

namespace Engine

variable (eng : Engine)

def query (o : Ref) : Query → Run Answer
  | .getPrototypeOf => do return .prototype ((← Run.heap).prototypeOf o)
  | .setPrototypeOf p => .verdict <$> eng.setPrototypeOf o p
  | .isExtensible => do return .verdict ((← Run.heap).isExtensible o)
  | .preventExtensions => do
    Run.change fun m => { m with heap := m.heap.preventExtensions o }
    return .verdict true
  | .getOwn k => .descriptor <$> eng.getOwnProperty o k
  | .define k d => .verdict <$> eng.defineOwnProperty o k d
  | .has k => .verdict <$> eng.hasProperty o k
  | .get k => .value <$> eng.get o k
  | .set k v => .verdict <$> eng.setFor o k v (.object o)
  | .delete k => .verdict <$> eng.deleteProperty o k
  | .ownKeys => .keys <$> eng.ownKeys o
  | .hasOwn k => .verdict <$> eng.hasOwnProperty o k
  | .enumerableOwnKeys => .keys <$> eng.enumerableOwnKeys o
  | .isArray => do return .verdict ((← Run.heap).isArray (.object o))
  | .isCallable => do return .verdict ((← Run.heap).callable? (.object o)).isSome

/-- Puts queries one after the other, also after one that throws. -/
def converse (o : Ref) : List Query → Run (List (Except Value Answer))
  | [] => pure []
  | q :: rest => do
    let outcome ← Run.attempt (eng.query o q)
    return outcome :: (← converse o rest)

end Engine

/-- The query calls no accessor function of the object or its prototypes, and a new prototype has a
chain without proxies. -/
def Query.Quiet (m : Machine) (t : Ref) : Query → Prop
  | .get k => ∀ l d, m.heap.Chain (some t) l → m.heap.firstOwn k l = some d → d.get.join = none
  | .set k _ => ∀ l d, m.heap.Chain (some t) l → m.heap.firstOwn k l = some d → d.set.join = none
  | .setPrototypeOf (some p) => ∃ l, m.heap.Chain (some p) l
  | _ => True

/-- The query makes an array's length of an object, whose conversion runs user code. -/
def Query.Converts (m : Machine) (t : Ref) : Query → Prop
  | .define k d => (m.heap.object t).isArray = true ∧ k = .length ∧ ∃ r, d.value = some (.object r)
  | .set k v => (m.heap.object t).isArray = true ∧ k = .length ∧ ∃ r, v = .object r
  | _ => False

section Asking

variable {m : Machine} {t p : Ref} {ps l : List Ref} {c : Nat} {k : Key} {v : Value}

/-- The receiver of an assignment may be under proxies. -/
theorem Heap.Stack.setOnReceiver (ht : (m.heap.object t).isProxy = false)
    (hstack : m.heap.Stack t p ps) (hc : ps.length ≤ c) :
    Run.Alike c (fun n => (engine n).setOnReceiver (.object t) k v)
      (fun n => (engine n).setOnReceiver (.object p) k v) m := by
  simp only [Engine.setOnReceiver]
  refine (hstack.answer (.getOwnProperty k) hc).bind fun n own m' hres => ?_
  obtain ⟨-, rfl⟩ := eq_of_getOwnProperty ht hres
  cases own with
  | none => exact hstack.answer (.defineOwnProperty k (.plain v)) hc
  | some d =>
    dsimp only
    split
    · exact .const (pure false)
    · exact hstack.answer (.defineOwnProperty k { value := some v }) hc

theorem Heap.Stack.hasOwn (ht : (m.heap.object t).isProxy = false) (hstack : m.heap.Stack t p ps)
    (hc : ps.length ≤ c) :
    Run.Alike c (fun n => (engine n).hasOwnProperty t k) (fun n => (engine n).hasOwnProperty p k)
      m := by
  have hnone (n : Nat) : (engine n).proxyHasOwn? p k m = .ok none m := by
    cases hstack with
    | base => exact Run.kind_bind_of_not_proxy ht _ _
    | cover hp _ =>
      obtain ⟨table, hkind, hlookup⟩ := hp.table
      refine (Run.bind_apply _ _ m).trans ?_
      simp [Run.kind, hkind, TrapTable.has, hlookup, Run.pure_apply]
  have hnone' (n : Nat) : (engine n).proxyHasOwn? t k m = .ok none m :=
    Run.kind_bind_of_not_proxy ht _ _
  refine .congr (fun n => Run.bind_ok (hnone' n)) (fun n => Run.bind_ok (hnone n)) ?_
  exact (hstack.answer (.getOwnProperty k) hc).bind fun _ own _ _ => .const (pure own.isSome)

theorem Heap.Stack.keepEnumerable (ht : (m.heap.object t).isProxy = false)
    (hstack : m.heap.Stack t p ps) (hc : ps.length ≤ c) (ks : List Key) :
    Run.Alike c (fun n => (engine n).keepEnumerable t ks) (fun n => (engine n).keepEnumerable p ks)
      m := by
  induction ks with
  | nil => exact .const (pure [])
  | cons k rest ih =>
    have hown : Run.Alike c (fun n => (engine n).isOwnEnumerable t k)
        (fun n => (engine n).isOwnEnumerable p k) m :=
      (hstack.answer (.getOwnProperty k) hc).bind fun _ own _ _ => .const (pure (own.any _))
    refine hown.bind fun n keep m' hres => ?_
    obtain ⟨own, m₁, hown, hpure⟩ := Run.of_bind_ok hres
    obtain ⟨-, rfl⟩ := eq_of_getOwnProperty ht hown
    cases hpure
    exact ih.bind fun _ kept _ _ => .const (pure _)

variable (hl : m.heap.Chain (some t) l) (hstack : m.heap.Stack t p ps)

include hl hstack

/-- A property is read alike if no getter is called. -/
theorem Heap.Stack.get
    (hquiet : ∀ d, m.heap.firstOwn k l = some d → d.get.join = none) :
    Run.Alike (2 * ps.length) (fun n => (engine n).get t k) (fun n => (engine n).get p k) m := by
  rw [Nat.two_mul]
  refine .trans (hl.alike_walk (Method.seeks_get k (.object t)) (Method.seeks_get k (.object p))
    (fun d hd => ?_) (.const _)) (hstack.answer (.get k (.object p)) (Nat.le_refl _))
  rw [hquiet d hd]
  cases d.value with
  | none => exact .const (pure Value.undefined)
  | some v => exact .const (pure v)

/-- **An assignment is done alike if no setter is called.** -/
theorem Heap.Stack.set
    (hquiet : ∀ d, m.heap.firstOwn k l = some d → d.set.join = none) :
    Run.Alike (2 * ps.length) (fun n => (engine n).setFor t k v (.object t))
      (fun n => (engine n).setFor p k v (.object p)) m := by
  have ht := hl.start.2
  have hreceiver := hstack.setOnReceiver (k := k) (v := v) ht (Nat.le_refl _)
  -- the object walks its own chain for another receiver first; the way down to it is added
  rw [Nat.two_mul]
  refine .trans (hl.alike_walk (Method.seeks_set k v (.object t)) (Method.seeks_set k v (.object p))
    (fun d hd => ?_) hreceiver) (hstack.answer (.set k v (.object p)) (Nat.le_refl _))
  rw [hquiet d hd]
  split
  · split
    · exact .const (pure false)
    · exact hreceiver
  · exact .const (pure false)

/-- **A stack answers every quiet query as the object under it does.** -/
theorem Heap.Stack.query {q : Query} (hq : q.Quiet m t) :
    Run.Alike (2 * ps.length) (fun n => (engine n).query t q)
      (fun n => (engine n).query p q) m := by
  have ht := hl.start.2
  have hroot : m.heap.root p = m.heap.root t := by rw [hstack.root ht, Heap.root_eq_self ht]
  have hc : ps.length ≤ 2 * ps.length := by omega
  -- what is read from the heap does not depend on fuel
  have hread {q : Query} (hsame : (engine 0).query p q m = (engine 0).query t q m)
      (hconst : ∀ n o, (engine n).query o q = (engine 0).query o q) :
      Run.Alike (2 * ps.length) (fun n => (engine n).query t q) (fun n => (engine n).query p q) m :=
    .congr (fun n => congrFun (hconst n t) m) (fun n => (congrFun (hconst n p) m).trans hsame)
      (.const _)
  cases q with
  | getPrototypeOf =>
    refine hread ?_ fun _ _ => rfl
    show EStateM.Result.ok (Answer.prototype (m.heap.prototypeOf p)) m = .ok (.prototype _) m
    rw [Heap.prototypeOf, hroot]
    rfl
  | setPrototypeOf v => exact (hstack.answer (.setPrototypeOf v) hc).map _
  | isExtensible =>
    refine hread ?_ fun _ _ => rfl
    show EStateM.Result.ok (Answer.verdict (m.heap.isExtensible p)) m = .ok (.verdict _) m
    rw [Heap.isExtensible, hroot]
    rfl
  | preventExtensions =>
    refine hread ?_ fun _ _ => rfl
    show EStateM.Result.ok (Answer.verdict true) (m.withHeap (m.heap.preventExtensions p)) =
      .ok (.verdict true) _
    rw [Heap.preventExtensions, hroot]
    rfl
  | getOwn k => exact (hstack.answer (.getOwnProperty k) hc).map _
  | define k d => exact (hstack.answer (.defineOwnProperty k d) hc).map _
  | has k => exact (hstack.answer (.hasProperty k) hc).map _
  | get k => exact (hstack.get hl fun d => hq l d hl).map _
  | set k v => exact (hstack.set hl fun d => hq l d hl).map _
  | delete k => exact (hstack.answer (.delete k) hc).map _
  | ownKeys => exact (hstack.answer .ownKeys hc).map _
  | hasOwn k => exact (hstack.hasOwn ht hc).map _
  | enumerableOwnKeys =>
    refine Run.Alike.map _ ((hstack.answer .ownKeys hc).bind fun n ks m' hres => ?_)
    obtain rfl := eq_of_ownKeys ht hres
    exact hstack.keepEnumerable ht hc _
  | isArray =>
    refine hread ?_ fun _ _ => rfl
    show EStateM.Result.ok (Answer.verdict (m.heap.isArray (.object p))) m = .ok (.verdict _) m
    rw [Heap.isArray, hroot]
    rfl
  | isCallable =>
    refine hread ?_ fun _ _ => rfl
    show EStateM.Result.ok (Answer.verdict (m.heap.callable? (.object p)).isSome) m =
      .ok (.verdict (m.heap.callable? (.object t)).isSome) m
    rw [Heap.callable?, Heap.callable?, hroot]
    cases m.heap.kind (m.heap.root t) <;> rfl

end Asking

/-! ## What queries leave -/

/-- Proxies stay, and every object has the prototype it had. -/
structure Machine.KeepsLinks (m m' : Machine) : Prop extends m.KeepsProxies m' where
  prototypes : ∀ r : Ref, r.index < m.size →
    (m'.heap.object r).prototype = (m.heap.object r).prototype

namespace Machine.KeepsLinks

variable {m m' : Machine} {r : Ref}

protected theorem refl (m : Machine) : m.KeepsLinks m := ⟨.refl m, fun _ _ => rfl⟩

theorem of_grown (h : m.Grown m') : m.KeepsLinks m' where
  grows := h.size_le
  proxies r hr target traps := by
    rw [Heap.kind, h.object hr]
    rfl
  prototypes r hr := by rw [h.object hr]

theorem revise {o : Object} (h : (m.heap.object r).Revision (fun _ => True) o) :
    m.KeepsLinks (m.withHeap (m.heap.modify r fun _ => o)) where
  toKeepsProxies := .of_onward (.of_modify h.onward)
  prototypes p _ := by
    show ((m.heap.modify r fun _ => o).object p).prototype = _
    rw [Heap.object_modify]
    split
    · next hp => rw [h.prototype, hp.1]
    · rfl

/-- A chain without proxies stays one. -/
theorem chain (h : m.KeepsLinks m') {p : Option Ref} {l : List Ref} (hl : m.heap.Chain p l) :
    m'.heap.Chain p l :=
  hl.transfer fun r _ hlive hproxy => ⟨Nat.lt_of_lt_of_le hlive h.grows,
    h.isProxy_eq_false hlive hproxy, h.prototypes r hlive⟩

end Machine.KeepsLinks

section Leaving

variable {m : Machine} {t : Ref} {l : List Ref} {k : Key} {v : Value}

theorem settles_reviseObject {f : Object → Option Object}
    (hf : ∀ a, f (m.heap.object t) = some a → (m.heap.object t).Revision (fun _ => True) a) :
    Run.Settles m.KeepsLinks (fun _ => Engine.reviseObject t f) m := by
  have happly := Engine.reviseObject_apply t f m
  cases hfound : f (m.heap.object t) with
  | none =>
    rw [hfound] at happly
    exact .ok (fun _ => happly) (.refl m)
  | some a =>
    rw [hfound] at happly
    exact .ok (fun _ => happly) (.revise (hf a hfound))

theorem settles_fail {α : Type} (fault : Fault) :
    Run.Settles m.KeepsLinks (fun _ => (Run.fail fault : Run α)) m := by
  obtain ⟨v, m', hfail, hgrown, -⟩ := fail_apply (α := α) fault m
  exact ⟨0, _, fun _ _ => hfail, fun _ hout => (by cases hout), .of_grown hgrown⟩

/-- A definition whose value needs no conversion keeps all links. -/
theorem settles_define {d : Descriptor} (ht : (m.heap.object t).isProxy = false)
    (hd : (m.heap.object t).isArray = true → k = .length → ∀ v, d.value = some v → v.IsPrimitive) :
    Run.Settles m.KeepsLinks (fun n => (engine n).defineOwnProperty t k d) m := by
  have hrevise :
      Run.Settles m.KeepsLinks (fun _ => Engine.reviseObject t (Engine.defined? k d)) m :=
    settles_reviseObject fun a ha => Engine.revision_defined? trivial ha
  refine .step (.congr (fun n => Run.kind_bind_of_not_proxy ht _ _) ?_)
  simp only [Engine.ordinaryDefine_eq]
  have hkind : Run.kind t m = .ok (m.heap.kind t) m := rfl
  refine .bind_ok (fun _ => hkind) ?_
  cases hkind : m.heap.kind t with
  | array length writable =>
    have harray : (m.heap.object t).isArray = true := by
      simp only [Heap.kind] at hkind
      simp [Object.isArray, hkind]
    dsimp only
    split
    · next hk =>
      simp only [Engine.defineLength_primitive (hd harray hk)]
      cases d.value.map Value.number? with
      | none => exact .ok (fun _ => Engine.reviseWith_apply t _ m) (.revise (.restrictLength d))
      | some n? =>
        cases n? with
        | none => exact settles_fail _
        | some n =>
          dsimp only
          split
          · exact settles_fail _
          · split
            · exact .ok (fun _ => rfl) (.refl m)
            · exact .ok (fun _ => Engine.reviseWith_apply t _ m)
                (.revise (.resize _ _ n.modWord_le))
    · exact hrevise
  | _ => exact hrevise

/-- So does an assignment to a receiver. -/
theorem settles_setOnReceiver (ht : (m.heap.object t).isProxy = false)
    (hv : (m.heap.object t).isArray = true → k = .length → v.IsPrimitive) :
    Run.Settles m.KeepsLinks (fun n => (engine n).setOnReceiver (.object t) k v) m := by
  have hdefine (d : Descriptor) (hd : d.value = some v) :
      Run.Settles m.KeepsLinks (fun n => (engine n).defineOwnProperty t k d) m := by
    refine settles_define ht fun harray hk v' hv' => ?_
    cases hd.symm.trans hv'
    exact hv harray hk
  simp only [Engine.setOnReceiver]
  refine .bind_ok (fun n => engine_getOwnProperty ht) ?_
  cases (m.heap.object t).ownDescriptor k with
  | none => exact hdefine (.plain v) rfl
  | some d =>
    dsimp only
    split
    · exact .ok (fun _ => rfl) (.refl m)
    · exact hdefine { value := some v } rfl

/-- A chain without proxies is searched to its end. -/
theorem Heap.Chain.chainReaches {h : Heap} {p : Option Ref} (hl : h.Chain p l) {fuel : Nat}
    (hfuel : l.length ≤ fuel) : h.chainReaches t fuel p = some (decide (t ∈ l)) := by
  induction hl generalizing fuel with
  | done => cases fuel <;> rfl
  | @link o rest _ hproxy _ ih =>
    obtain ⟨fuel, rfl⟩ : ∃ i, fuel = i + 1 :=
      ⟨fuel - 1, by rw [List.length_cons] at hfuel; omega⟩
    rw [Heap.chainReaches, ih (Nat.le_of_succ_le_succ hfuel), hproxy]
    by_cases ho : o = t
    · simp [ho]
    · simp [ho, Ne.symm ho]

theorem Heap.Chain.modify {h : Heap} {p : Option Ref} (hl : h.Chain p l) (hmem : t ∉ l)
    (f : Object → Object) : (h.modify t f).Chain p l := by
  refine hl.transfer fun r hr hlive hproxy => ?_
  have hne : r ≠ t := fun heq => hmem (heq ▸ hr)
  have hsame : (h.modify t f).object r = h.object r := by
    rw [Heap.object_modify, if_neg fun hboth => hne hboth.1]
  rw [hsame, Heap.size_modify]
  exact ⟨hlive, hproxy, rfl⟩

/-- A new prototype without proxies above it leaves none above the object. -/
theorem settles_setPrototypeOf (hl : m.heap.Chain (some t) l) {p : Option Ref} {l' : List Ref}
    (hp : m.heap.Chain p l') :
    Run.Settles (fun m' => ∃ l, m'.heap.Chain (some t) l)
      (fun n => (engine n).setPrototypeOf t p) m := by
  obtain ⟨hlive, ht⟩ := hl.start
  have happly := Engine.ordinarySetPrototypeOf_apply t p m
  refine .step (.congr (fun n => Run.kind_bind_of_not_proxy ht _ _) ?_)
  rw [hp.chainReaches hp.length_le] at happly
  split at happly
  · exact .ok (fun _ => happly) ⟨l, hl⟩
  · split at happly
    · exact .ok (fun _ => happly) ⟨l, hl⟩
    · by_cases hmem : t ∈ l'
      · simp only [hmem, decide_true] at happly
        exact .ok (fun _ => happly) ⟨l, hl⟩
      · simp only [hmem, decide_false] at happly
        have hself : (m.heap.modify t fun o => { o with prototype := p }).object t =
            { m.heap.object t with prototype := p } := by
          rw [Heap.object_modify, if_pos ⟨rfl, hlive⟩]
        have hfirst := hp.modify hmem fun o => { o with prototype := p }
        refine .ok (fun _ => happly) ⟨t :: l', .link ?_ ?_ ?_⟩
        · rw [Machine.heap_withHeap, Heap.size_modify]
          exact hlive
        · rw [Machine.heap_withHeap, hself]
          exact ht
        · rw [Machine.heap_withHeap, hself]
          exact hfirst

/-- **A quiet query without a conversion comes to an end, and leaves a chain without proxies.** -/
theorem settles_query (hl : m.heap.Chain (some t) l) {q : Query} (hq : q.Quiet m t)
    (hplain : ¬ q.Converts m t) :
    Run.Settles (fun m' => ∃ l, m'.heap.Chain (some t) l) (fun n => (engine n).query t q) m := by
  have ht := hl.start.2
  have hkeeps : ∀ m', m.KeepsLinks m' → ∃ l, m'.heap.Chain (some t) l := fun _ h => ⟨l, h.chain hl⟩
  have hself : ∃ l, m.heap.Chain (some t) l := ⟨l, hl⟩
  cases q with
  | getPrototypeOf => exact .ok (fun _ => rfl) hself
  | setPrototypeOf p =>
    cases p with
    | none => exact (settles_setPrototypeOf hl .done).map _
    | some p =>
      obtain ⟨l', hl'⟩ := hq
      exact (settles_setPrototypeOf hl hl').map _
  | isExtensible => exact .ok (fun _ => rfl) hself
  | preventExtensions =>
    refine .ok (fun _ => rfl) (hkeeps (m.withHeap (m.heap.preventExtensions t)) ?_)
    have hclose : m.heap.preventExtensions t =
        m.heap.modify t fun _ => { m.heap.object t with extensible := false } := by
      rw [Heap.preventExtensions, Heap.root_eq_self ht]
      exact Heap.modify_congr rfl
    rw [hclose]
    exact .revise .close
  | getOwn k => exact .map _ (.ok (fun _ => engine_getOwnProperty ht) hself)
  | define k d =>
    have hdefine := settles_define (d := d) ht fun harray hk v hv r hr =>
      hplain ⟨harray, hk, r, by rw [hv, hr]⟩
    exact (hdefine.mono hkeeps).map _
  | has k =>
    exact .map _ (hl.settles_walk (Method.seeks_hasProperty k)
      (fun _ _ => .ok (fun _ => rfl) hself) (.ok (fun _ => rfl) hself))
  | get k =>
    refine .map _ (hl.settles_walk (Method.seeks_get k (.object t)) (fun d hd => ?_)
      (.ok (fun _ => rfl) hself))
    rw [hq l d hl hd]
    cases d.value with
    | none => exact .ok (fun _ => rfl) hself
    | some v => exact .ok (fun _ => rfl) hself
  | set k v =>
    have hreceiver := (settles_setOnReceiver ht fun harray hk r hr =>
      hplain ⟨harray, hk, r, hr⟩).mono hkeeps
    refine .map _ (hl.settles_walk (Method.seeks_set k v (.object t)) (fun d hd => ?_) hreceiver)
    rw [hq l d hl hd]
    split
    · split
      · exact .ok (fun _ => rfl) hself
      · exact hreceiver
    · exact .ok (fun _ => rfl) hself
  | delete k =>
    refine .map _ (.step (.congr (fun n => Run.kind_bind_of_not_proxy ht _ _) ?_))
    rw [Engine.ordinaryDelete_eq]
    exact (settles_reviseObject fun a ha => Engine.revision_deleted? ha).mono hkeeps
  | ownKeys => exact .map _ (.ok (fun _ => engine_ownKeys ht) hself)
  | hasOwn k => exact .map _ (.ok (fun _ => engine_hasOwnProperty ht) hself)
  | enumerableOwnKeys =>
    exact .map _ (.bind_ok (fun _ => engine_ownKeys ht)
      (.ok (fun _ => engine_keepEnumerable ht _) hself))
  | isArray => exact .ok (fun _ => rfl) hself
  | isCallable => exact .ok (fun _ => rfl) hself

end Leaving

theorem Routine.query (b : Nat) (o : Ref) (q : Query) :
    Routine .proxies b (fun _ _ => True) fun eng => eng.query o q := by
  have hseen {α : Type} [HasRefs α] (a : α) : Discipline.proxies.Seen b a := fun _ _ => trivial
  cases q with
  | getPrototypeOf => exact .bind .heap fun _ _ _ _ => .done _
  | setPrototypeOf p => exact .mapAny (.setPrototypeOf (hseen o) (hseen p)) _
  | isExtensible => exact .bind .heap fun _ _ _ _ => .done _
  | preventExtensions => exact .bind (.preventExtensions o) fun _ _ _ _ => .done _
  | getOwn k => exact .mapAny (.getOwnProperty (hseen o)) _
  | define k d => exact .mapAny (.defineOwnProperty (hseen o) (hseen d)) _
  | has k => exact .mapAny (.hasProperty (hseen o)) _
  | get k => exact .mapAny (.get (hseen o)) _
  | set k v => exact .mapAny (.setFor (hseen o) (hseen v) (hseen (Value.object o))) _
  | delete k => exact .mapAny (.deleteProperty (hseen o)) _
  | ownKeys => exact .mapAny (.ownKeys (hseen o)) _
  | hasOwn k => exact .mapAny (.hasOwnProperty (hseen o)) _
  | enumerableOwnKeys => exact .mapAny (.enumerableOwnKeys (hseen o)) _
  | isArray => exact .bind .heap fun _ _ _ _ => .done _
  | isCallable => exact .bind .heap fun _ _ _ _ => .done _

/-- Every query is quiet when it is put to the object, and no conversion leaves a proxy on the
chain of its prototypes: the user code that it runs can bring one there only by a prototype that it
sets. -/
def Calm (t : Ref) : List Query → Machine → Prop
  | [], _ => True
  | q :: rest, m =>
    q.Quiet m t ∧
      ∀ n outcome m', Run.attempt ((engine n).query t q) m = .ok outcome m' →
        (q.Converts m t → ∃ l, m'.heap.Chain (some t) l) ∧ Calm t rest m'

section Conversing

variable {m : Machine} {t p : Ref} {ps l : List Ref}

theorem final_of_attempt {α : Type} {x : Run α} {outcome : Except Value α} {m' : Machine}
    (hres : Run.attempt x m = .ok outcome m') : Run.final (x m) = m' := by
  unfold Run.attempt at hres
  cases hx : x m with
  | ok a m₁ =>
    rw [hx] at hres
    cases hres
    rfl
  | error e m₁ =>
    rw [hx] at hres
    cases e with
    | thrown v =>
      cases hres
      rfl
    | outOfFuel => cases hres

/-- Queries that call no function whenever they are put are calm. -/
theorem Calm.of_forall {qs : List Query}
    (hqs : ∀ q ∈ qs, ∀ m, q.Quiet m t ∧ ¬ q.Converts m t) (m : Machine) : Calm t qs m := by
  induction qs generalizing m with
  | nil => trivial
  | cons q rest ih =>
    obtain ⟨hquiet, hplain⟩ := hqs q List.mem_cons_self m
    exact ⟨hquiet, fun _ _ m' _ => ⟨fun hconverts => absurd hconverts hplain,
      ih (fun q hq => hqs q (List.mem_cons_of_mem _ hq)) m'⟩⟩

/-- A calm conversation goes on from a chain without proxies. -/
theorem Calm.next {q : Query} {rest : List Query} (hcalm : Calm t (q :: rest) m)
    (hl : m.heap.Chain (some t) l) {n : Nat} {outcome : Except Value Answer} {m' : Machine}
    (hres : Run.attempt ((engine n).query t q) m = .ok outcome m') :
    (∃ l, m'.heap.Chain (some t) l) ∧ Calm t rest m' := by
  obtain ⟨hquiet, hafter⟩ := hcalm
  obtain ⟨hconverted, hrest⟩ := hafter n outcome m' hres
  refine ⟨?_, hrest⟩
  by_cases hconverts : q.Converts m t
  · exact hconverted hconverts
  · obtain ⟨N, outcome', m₁, hend, hchain⟩ := (settles_query hl hquiet hconverts).attempt
    have hlags := (Routine.query m.size t q).lags_engine (Nat.le_max_left n N)
    rcases hlags.attempt with ⟨_, hout⟩ | hsame
    · cases hres.symm.trans hout
    · cases (hend _ (Nat.le_max_right n N)).symm.trans (hsame.trans hres)
      exact hchain

/-- **A calm conversation with a stack goes as with the object under it.** -/
theorem Heap.Stack.converse {qs : List Query} (hstack : m.heap.Stack t p ps)
    (hl : m.heap.Chain (some t) l) (hcalm : Calm t qs m) :
    Run.Alike (2 * ps.length) (fun n => (engine n).converse t qs)
      (fun n => (engine n).converse p qs) m := by
  induction qs generalizing m l with
  | nil => exact .const (pure [])
  | cons q rest ih =>
    refine (hstack.query hl hcalm.1).attempt.bind fun n outcome m' hres => ?_
    obtain ⟨⟨l', hl'⟩, hrest⟩ := hcalm.next hl hres
    have hkeeps := (Routine.query m.size t q).keepsProxies n
    rw [final_of_attempt hres] at hkeeps
    exact (ih (hstack.mono hkeeps) hl' hrest).bind fun _ outcomes _ _ =>
      .const (pure (outcome :: outcomes))

/-- A calm conversation without conversions comes to its end. -/
theorem Calm.ends {qs : List Query} (hcalm : Calm t qs m) (hl : m.heap.Chain (some t) l)
    (hplain : ∀ q ∈ qs, ∀ m, ¬ q.Converts m t) :
    ∃ N outcomes m', ∀ n, N ≤ n → (engine n).converse t qs m = .ok outcomes m' := by
  induction qs generalizing m l with
  | nil => exact ⟨0, [], m, fun _ _ => rfl⟩
  | cons q rest ih =>
    obtain ⟨N, outcome, m₁, hfirst, -⟩ :=
      (settles_query hl hcalm.1 (hplain q List.mem_cons_self m)).attempt
    obtain ⟨⟨l', hl'⟩, hrest⟩ := hcalm.next hl (hfirst N (Nat.le_refl _))
    obtain ⟨N', outcomes, m', hothers⟩ :=
      ih hrest hl' fun q hq => hplain q (List.mem_cons_of_mem _ hq)
    refine ⟨max N N', outcome :: outcomes, m', fun n hn => ?_⟩
    rw [Engine.converse, Run.bind_ok (hfirst n (by omega)), Run.bind_ok (hothers n (by omega))]
    rfl

/-- **Proxies without traps cannot be seen.**  What an object under any number of them is asked, it
answers alike when the outermost proxy is asked, and the same machine is left; this takes at most
two units of fuel more for every proxy.  Unless an object is converted to a length, the answers do
come. -/
theorem proxies_unseen {qs : List Query} (hl : m.heap.Chain (some t) l)
    (hstack : m.heap.Stack t p ps) (hcalm : Calm t qs m) :
    (∀ n outcomes m', (engine n).converse t qs m = .ok outcomes m' →
      ∀ n', n + 2 * ps.length ≤ n' → (engine n').converse p qs m = .ok outcomes m') ∧
    (∀ n outcomes m', (engine n).converse p qs m = .ok outcomes m' →
      (engine n).converse t qs m = .ok outcomes m') ∧
    ((∀ q ∈ qs, ∀ m, ¬ q.Converts m t) →
      ∃ N outcomes m', ∀ n, N ≤ n → (engine n).converse t qs m = .ok outcomes m') := by
  have halike := hstack.converse hl hcalm
  refine ⟨fun n outcomes m' hres n' hn => ?_, fun n outcomes m' hres => ?_, hcalm.ends hl⟩
  · rcases halike.up n n' hn with ⟨_, hout⟩ | hsame
    · cases hres.symm.trans hout
    · exact hsame.trans hres
  · rcases halike.down n with ⟨_, hout⟩ | hsame
    · cases hres.symm.trans hout
    · exact hsame.trans hres

end Conversing

/-! ### An array under two proxies -/

def Machine.twiceProxied : Machine :=
  Run.final ((engine 9).answer (.evaluate none (.operation (.extend (.proxy 0 []))
    [.operation (.extend (.proxy 0 [])) [.array [.value (.ofNat 7), .value (.ofNat 8)]] none] none))
    (Session.initialMachine ⟨true, false⟩))

/-- A sixth element, a length that is read-only from then on, so no eighth element, and no
prototype any more. -/
def Query.dialogue : List Query :=
  [.set (.index 5) .null, .define .length { writable := some false },
    .define (.index 7) (.plain .null), .setPrototypeOf none, .getPrototypeOf, .isArray]

/-- The dialogue goes through both proxies as with the array itself. -/
theorem proxies_unseen_twiceProxied :
    Machine.twiceProxied.heap.Chain (some ⟨46⟩)
      [⟨46⟩, Intrinsic.arrayPrototype.ref, Intrinsic.objectPrototype.ref] ∧
    Machine.twiceProxied.heap.Stack ⟨46⟩ ⟨48⟩ [⟨48⟩, ⟨47⟩] ∧
    Calm ⟨46⟩ Query.dialogue Machine.twiceProxied ∧
    ∃ outcomes m', (engine 9).converse ⟨46⟩ Query.dialogue Machine.twiceProxied = .ok outcomes m' ∧
      (engine 13).converse ⟨48⟩ Query.dialogue Machine.twiceProxied = .ok outcomes m' ∧
      outcomes = [.ok (.verdict true), .ok (.verdict true), .ok (.verdict false),
        .ok (.verdict true), .ok (.prototype none), .ok (.verdict true)] := by
  have hdecided : Machine.twiceProxied.heap.Chain (some ⟨46⟩)
        [⟨46⟩, Intrinsic.arrayPrototype.ref, Intrinsic.objectPrototype.ref] ∧
      (Machine.twiceProxied.heap.kind ⟨48⟩).forwards? = some (⟨47⟩, []) ∧
      (Machine.twiceProxied.heap.kind ⟨47⟩).forwards? = some (⟨46⟩, []) ∧
      Machine.twiceProxied.heap.firstOwn (.index 5)
        [⟨46⟩, Intrinsic.arrayPrototype.ref, Intrinsic.objectPrototype.ref] = none ∧
      ((engine 9).converse ⟨46⟩ Query.dialogue).run' Machine.twiceProxied =
        some [.ok (.verdict true), .ok (.verdict true), .ok (.verdict false),
          .ok (.verdict true), .ok (.prototype none), .ok (.verdict true)] := by decide +kernel
  -- from here on the machine is not evaluated any more
  generalize Machine.twiceProxied = m at *
  obtain ⟨hchain, houter, hinner, habsent, hrun⟩ := hdecided
  have hstack : m.heap.Stack ⟨46⟩ ⟨48⟩ [⟨48⟩, ⟨47⟩] := .cover houter (.cover hinner .base)
  have hcalm : Calm ⟨46⟩ Query.dialogue m := by
    refine ⟨fun l d hl hd => ?_, fun _ _ m' _ => ⟨fun hconverts => ?_, .of_forall ?_ m'⟩⟩
    · rw [hl.unique hchain, habsent] at hd
      cases hd
    · simp [Query.Converts] at hconverts
    · simp [Query.Quiet, Query.Converts, Descriptor.plain]
  refine ⟨hchain, hstack, hcalm, ?_⟩
  unfold EStateM.run' EStateM.run at hrun
  cases hres : (engine 9).converse ⟨46⟩ Query.dialogue m with
  | ok outcomes m' =>
    rw [hres] at hrun
    exact ⟨outcomes, m', rfl, (proxies_unseen hchain hstack hcalm).1 9 outcomes m' hres 13
      (by decide), Option.some_inj.1 hrun⟩
  | error e m' =>
    rw [hres] at hrun
    cases hrun

end ObjectModel
