import ObjectModel.Proofs.HandlerPrecedence
import ObjectModel.Proofs.Hosting
import ObjectModel.Proofs.Layers

/-!
# Walks end

In a founded machine the walks over the heap need no more steps than there are objects: the search
for a cycle before an object gets another prototype, the way through proxies to the object under
them, and the walk of a look-up or an assignment along prototypes that are not proxies.  So for a
realm that starts with its extensions they end at every moment of its history (`walks_end`).
-/

namespace ObjectModel

open Relation

/-- The run has come to an end: it gave something or threw. -/
def Run.Ended {α : Type} : EStateM.Result Halt Machine α → Prop
  | .error .outOfFuel _ => False
  | _ => True

namespace Heap.Chain

variable {h : Heap} {l l' : List Ref}

/-- On a chain there is no proxy. -/
theorem isProxy_of_rise {o q : Ref} (hl : h.Chain (some o) l) (hq : ReflTransGen h.Rise o q) :
    (h.object q).isProxy = false := by
  generalize hstart : some o = start at hl
  induction hl generalizing o with
  | done => cases hstart
  | link _ hproxy _ ih =>
    cases hstart
    rcases hq.cases_head with rfl | ⟨parent, hrise, hrest⟩
    · exact hproxy
    · exact ih hrest hrise.2.symm

protected theorem unique {o : Option Ref} (hl : h.Chain o l) (hl' : h.Chain o l') : l = l' := by
  induction hl generalizing l' with
  | done =>
    cases hl'
    rfl
  | link _ _ _ ih =>
    cases hl' with
    | link _ _ hrest => rw [ih hrest]

end Heap.Chain

/-! ## Walks over the heap -/

namespace Machine.Founded

variable {m : Machine} (h : m.Founded)

include h

/-- Under all proxies there is an object that is none. -/
theorem root (r : Ref) :
    ReflTransGen m.heap.Target r (m.heap.root r) ∧
      (m.heap.object (m.heap.root r)).isProxy = false :=
  Machine.Layered.root ⟨h.intrinsics, h.targets⟩ r

/-- The search for a cycle ends within the height of where it starts. -/
theorem chainReaches_isSome (o : Ref) {fuel : Nat} {p : Option Ref}
    (hfuel : ∀ q, p = some q → m.heap.height q < fuel) :
    (m.heap.chainReaches o fuel p).isSome = true := by
  induction fuel generalizing p with
  | zero =>
    cases p with
    | none => rfl
    | some q => exact absurd (hfuel q rfl) (Nat.not_lt_zero _)
  | succ fuel ih =>
    cases p with
    | none => rfl
    | some q =>
      rw [Heap.chainReaches]
      split
      · rfl
      · split
        · rfl
        · next hproxy =>
          refine ih fun q' hq' => ?_
          have hlt := Heap.height_lt h.acyclic (h.prototypes q q' hq')
            ⟨by simpa using hproxy, hq'⟩
          have hle := hfuel q rfl
          omega

theorem exists_chainReaches (o : Ref) (p : Option Ref) :
    ∃ b, m.heap.chainReaches o m.heap.objects.size p = some b := by
  cases p with
  | none => exact ⟨false, by cases m.heap.objects.size <;> rfl⟩
  | some q =>
    refine Option.isSome_iff_exists.1 ?_
    by_cases hq : q.index < m.heap.objects.size
    · refine h.chainReaches_isSome o fun q' hq' => ?_
      cases hq'
      exact Heap.height_lt_size h.acyclic hq
    · -- a place without an object has no prototype
      have hpos : 0 < m.heap.objects.size := Nat.lt_of_lt_of_le (by decide) h.intrinsics
      obtain ⟨fuel, hfuel⟩ : ∃ fuel, m.heap.objects.size = fuel + 1 :=
        ⟨m.heap.objects.size - 1, by omega⟩
      have hdefault := Heap.object_of_size_le (Nat.le_of_not_lt hq)
      rw [hfuel, Heap.chainReaches, hdefault]
      split
      · rfl
      · cases fuel <;> rfl

/-- An object below no proxy has a chain of prototypes. -/
theorem exists_chain {o : Ref} (hlive : o.index < m.size)
    (hproxy : ∀ q, ReflTransGen m.heap.Rise o q → (m.heap.object q).isProxy = false) :
    ∃ l, m.heap.Chain (some o) l ∧ l.length ≤ m.heap.height o + 1 := by
  induction hheight : m.heap.height o using Nat.strongRecOn generalizing o with
  | ind height ih =>
    cases hparent : (m.heap.object o).prototype with
    | none =>
      refine ⟨[o], .link hlive (hproxy o .refl) ?_, Nat.le_add_left 1 _⟩
      rw [hparent]
      exact .done
    | some parent =>
      have hrise : m.heap.Rise o parent := ⟨hproxy o .refl, hparent⟩
      have hlive' := h.prototypes o parent hparent
      have hlt := Heap.height_lt h.acyclic hlive' hrise
      obtain ⟨l, hl, hlength⟩ := ih _ (hheight ▸ hlt) hlive'
        (fun q hq => hproxy q (.head hrise hq)) rfl
      refine ⟨o :: l, .link hlive (hproxy o .refl) ?_, ?_⟩
      · rw [hparent]
        exact hl
      · rw [List.length_cons]
        omega

end Machine.Founded

/-! ## Assigning along a chain -/

section Assigning

variable {host : Host} {n : Nat} {m : Machine} {o : Ref} {k : Key} {v : Value}

/-- The walk stops at the first property.  If that is not read-only, or if there is none, the
receiver gets the value. -/
theorem hosted_setFor (host : Host) {l : List Ref} (hl : m.heap.Chain (some o) l)
    (hn : l.length < n)
    (hd : ∀ d, m.heap.firstOwn k l = some d → d.isAccessor = false) (v receiver : Value) :
    ∃ n', n ≤ n' + l.length ∧ (hostedEngine host n).setFor o k v receiver m =
      if (m.heap.firstOwn k l).any (fun d => d.writable == some false) then .ok false m
      else (hostedEngine host n').setOnReceiver receiver k v m := by
  obtain ⟨n', hn', hwalk⟩ :=
    hl.hosted_walk_of_lt host (Method.seeks_set k v receiver) (fun _ _ => rfl) hn
  refine ⟨n', hn', hwalk.trans ?_⟩
  cases hfirst : m.heap.firstOwn k l with
  | none => rfl
  | some d =>
    obtain ⟨q, -, hown⟩ := Heap.ownDescriptor_of_firstOwn hfirst
    rcases Object.value_of_ownDescriptor hown with ⟨w, writable, hw, -, -⟩ | ⟨-, -, haccessor⟩
    · have hdata : d.isData = true := by simp [Descriptor.isData, hw]
      simp only [Option.elim_some, hdata, if_true, Option.any_some]
      split <;> rfl
    · exact absurd (hd d hfirst) (by simp [haccessor])

/-- A definition by a primitive value ends, and in the same way with any amount of fuel. -/
theorem hosted_defineOwnProperty_ended (ho : (m.heap.object o).isProxy = false) {d : Descriptor}
    (hd : ∀ v, d.value = some v → v.IsPrimitive) :
    ∃ res, Run.Ended res ∧ ∀ n, (hostedEngine host (n + 1)).defineOwnProperty o k d m = res := by
  have hrevise (f : Object → Option Object) : Run.Ended (Engine.reviseObject o f m) := by
    rw [Engine.reviseObject_apply]
    cases f (m.heap.object o) <;> trivial
  have hwith (f : Object → Object × Bool) : Run.Ended (Engine.reviseWith o f m) := by
    rw [Engine.reviseWith_apply]
    trivial
  have hlength : ∃ res, Run.Ended res ∧ ∀ eng : Engine, eng.defineLength o d m = res := by
    refine ⟨_, ?_, fun eng => congrFun (Engine.defineLength_primitive hd eng o) m⟩
    cases d.value.map Value.number? with
    | none => exact hwith _
    | some number =>
      cases number with
      | none => trivial
      | some number =>
        dsimp only
        split
        · trivial
        · split
          · trivial
          · exact hwith _
  have hdefine (n : Nat) : (hostedEngine host (n + 1)).defineOwnProperty o k d m =
      (hostedEngine host n).ordinaryDefine o k d m := Run.kind_bind_of_not_proxy ho _ _
  have hordinary : ∃ res, Run.Ended res ∧ ∀ eng : Engine, eng.ordinaryDefine o k d m = res := by
    simp only [Engine.ordinaryDefine, Run.bind_apply, Run.kind]
    cases m.heap.kind o with
    | array length writable =>
      by_cases hk : k = .length
      · simp only [hk, if_true]
        exact hlength
      · simp only [hk, if_false]
        exact ⟨_, hrevise _, fun _ => rfl⟩
    | _ => exact ⟨_, hrevise _, fun _ => rfl⟩
  obtain ⟨res, hended, hres⟩ := hordinary
  exact ⟨res, hended, fun n => (hdefine n).trans (hres _)⟩

/-- A primitive value is assigned to an object on whose chain there is neither a proxy nor an
accessor of the key. -/
theorem hosted_setFor_ended (host : Host) {l : List Ref} (hl : m.heap.Chain (some o) l)
    (hd : ∀ d, m.heap.firstOwn k l = some d → d.isAccessor = false) (hv : v.IsPrimitive) :
    ∃ res, Run.Ended res ∧ ∀ n, l.length < n →
      (hostedEngine host n).setFor o k v (.object o) m = res := by
  have hproxy : (m.heap.object o).isProxy = false := by
    cases hl
    assumption
  have hreceiver : ∃ res, Run.Ended res ∧ ∀ n,
      (hostedEngine host (n + 1)).setOnReceiver (.object o) k v m = res := by
    have hdefine (d : Descriptor) (hvalue : d.value = some v) : ∃ res, Run.Ended res ∧ ∀ n,
        (hostedEngine host (n + 1)).defineOwnProperty o k d m = res := by
      refine hosted_defineOwnProperty_ended hproxy fun w hw => ?_
      rw [hvalue] at hw
      cases hw
      exact hv
    have hown (n : Nat) : (hostedEngine host (n + 1)).getOwnProperty o k m = _ :=
      hosted_getOwnProperty hproxy
    simp only [Engine.setOnReceiver, Run.bind_apply, hown]
    cases (m.heap.object o).ownDescriptor k with
    | none => exact hdefine (.plain v) rfl
    | some d =>
      dsimp only
      split
      · exact ⟨.ok false m, trivial, fun _ => rfl⟩
      · exact hdefine { value := some v } rfl
  by_cases hread : (m.heap.firstOwn k l).any (fun d => d.writable == some false) = true
  · refine ⟨.ok false m, trivial, fun n hn => ?_⟩
    obtain ⟨n', -, hrun⟩ := hosted_setFor host hl hn hd v (.object o)
    rw [hrun, if_pos hread]
  · obtain ⟨res, hended, hres⟩ := hreceiver
    refine ⟨res, hended, fun n hn => ?_⟩
    obtain ⟨n', hn', hrun⟩ := hosted_setFor host hl hn hd v (.object o)
    obtain ⟨n', rfl⟩ : ∃ n'', n' = n'' + 1 := ⟨n' - 1, by omega⟩
    rw [hrun, if_neg hread]
    exact hres n'

end Assigning

/-! ## At every moment -/

/-- **Walks end.**  At every moment in the history of a realm that started with its extensions:

* prototypes linked through objects that are not proxies form no cycle;
* the target of a proxy is older than the proxy, which keeps it;
* the search for a cycle comes to an answer within the heap, so an object that is no proxy takes or
  refuses another prototype;
* through targets one gets to an object that is not a proxy, which is the root that tells what is an
  array, what can be called and what can construct;
* on an object below no proxy the chain of prototypes ends.  Then asking for a key ends, and reading
  it and assigning a primitive value to it if the property that is found is not an accessor, with
  any fuel beyond the number of objects. -/
theorem walks_end {options : Options} (hoptions : options.withoutExtensions = false) {m : Machine}
    (hm : ReflTransGen Machine.Before (Session.initialMachine options) m) :
    m.heap.Acyclic ∧
    (∀ p target traps, m.heap.kind p = .proxy target traps → target.index < p.index ∧
      ∀ m', ReflTransGen Machine.Before m m' → m'.heap.kind p = .proxy target traps) ∧
    (∀ o p, (∃ b, m.heap.chainReaches o m.heap.objects.size p = some b) ∧
      ∀ n, (m.heap.object o).isProxy = false →
        Run.Ended ((engine (n + 1)).setPrototypeOf o p m)) ∧
    (∀ r, ReflTransGen m.heap.Target r (m.heap.root r) ∧
      (m.heap.object (m.heap.root r)).isProxy = false) ∧
    ∀ o k, o.index < m.size →
      (∀ q, ReflTransGen m.heap.Rise o q → (m.heap.object q).isProxy = false) →
      ∃ l, m.heap.Chain (some o) l ∧
        (∀ n, m.size < n → (engine n).hasProperty o k m = .ok (m.heap.firstOwn k l).isSome m) ∧
        ((∀ d, m.heap.firstOwn k l = some d → d.isAccessor = false) →
          (∀ n receiver, m.size < n → (engine n).getFor o k receiver m =
            .ok (((m.heap.firstOwn k l).bind Descriptor.value).getD .undefined) m) ∧
          ∀ v : Value, v.IsPrimitive → ∃ res, Run.Ended res ∧ ∀ n, m.size < n →
            (engine n).setFor o k v (.object o) m = res) := by
  have h := founded_of_before hoptions hm
  have hattained : m.Attained := .of_before (.initial options) hm
  refine ⟨h.acyclic, fun p target traps hkind => ?_, fun o p => ?_, h.root,
    fun o k hlive hproxy => ?_⟩
  · refine ⟨h.targets p target traps hkind, fun m' hbefore => ?_⟩
    have hlive : p.index < m.size := Heap.live_of_kind (by simp [hkind])
    have honward := (onward_of_before hattained hbefore).kinds p hlive
    rw [hkind] at honward
    exact honward.proxy
  · obtain ⟨b, hb⟩ := h.exists_chainReaches o p
    refine ⟨⟨b, hb⟩, fun n ho => ?_⟩
    have hset : (engine (n + 1)).setPrototypeOf o p m = Engine.ordinarySetPrototypeOf o p m :=
      Run.kind_bind_of_not_proxy ho _ _
    rw [hset, Engine.ordinarySetPrototypeOf_apply, hb]
    split
    · trivial
    · split
      · trivial
      · cases b <;> trivial
  · obtain ⟨l, hl, hheight⟩ := h.exists_chain hlive hproxy
    have hlength : l.length ≤ m.size := by
      have hlt : m.heap.height o < m.size := Heap.height_lt_size h.acyclic hlive
      omega
    refine ⟨l, hl, fun n hn => ?_, fun hd => ⟨fun n receiver hn => ?_, fun v hv => ?_⟩⟩
    · rw [← hostedEngine_none]
      exact hosted_hasProperty hl (by omega)
    · rw [← hostedEngine_none]
      refine hosted_getFor hl (by omega) (fun d hfound => ?_) receiver
      obtain ⟨o', -, hown⟩ := Heap.ownDescriptor_of_firstOwn hfound
      rcases Object.value_of_ownDescriptor hown with ⟨v, w, hv, -, -⟩ | ⟨-, -, haccessor⟩
      · rw [hv]
        rfl
      · exact absurd (hd d hfound) (by simp [haccessor])
    · obtain ⟨res, hended, hres⟩ := hosted_setFor_ended (fun _ => none) hl hd hv
      refine ⟨res, hended, fun n hn => ?_⟩
      rw [← hostedEngine_none]
      exact hres n (by omega)

/-- The realm with its extensions, a handler at place 76 that inherits an operation, and a proxy
made from it. -/
def Machine.extendedHandler : Machine :=
  Run.final ((engine 30).answer (.evaluate none .inheritingHandler)
    (Session.initialMachine ⟨false, false⟩))

/-- The proxy has an older target, and assigning to the handler ends. -/
theorem walks_end_extendedHandler :
    ReflTransGen Machine.Before (Session.initialMachine ⟨false, false⟩) Machine.extendedHandler ∧
    (∃ target traps, Machine.extendedHandler.heap.kind ⟨78⟩ = .proxy target traps ∧
      target.index < 78) ∧
    (Machine.extendedHandler.heap.object (Machine.extendedHandler.heap.root ⟨78⟩)).isProxy = false ∧
    Machine.extendedHandler.heap.chainReaches ⟨74⟩ 79 (some ⟨76⟩) = some true ∧
    Machine.extendedHandler.heap.Chain (some ⟨76⟩) [⟨76⟩, ⟨74⟩, ⟨0⟩] ∧
    ∃ res, Run.Ended res ∧ ∀ n, 79 < n →
      (engine n).setFor ⟨76⟩ "has" .null (.object ⟨76⟩) Machine.extendedHandler = res := by
  have hliteral : ∀ r, ¬ Expr.inheritingHandler.RefersTo r := by
    intro r
    simp [Expr.inheritingHandler, Value.ofNat]
  have hbefore : (Session.initialMachine ⟨false, false⟩).Before Machine.extendedHandler :=
    .evaluate 30 hliteral (.initial _)
  have hsize : Machine.extendedHandler.size = 79 := by decide +kernel
  have hkind : (Machine.extendedHandler.heap.object ⟨78⟩).isProxy = true := by decide +kernel
  have hcycle : Machine.extendedHandler.heap.chainReaches ⟨74⟩ 79 (some ⟨76⟩) = some true := by
    decide +kernel
  have hlinks : ([⟨76⟩, ⟨74⟩, ⟨0⟩] : List Ref).map (fun r =>
      ((Machine.extendedHandler.heap.object r).isProxy,
        (Machine.extendedHandler.heap.object r).prototype)) =
        [(false, some ⟨74⟩), (false, some ⟨0⟩), (false, none)] := by decide +kernel
  have hplain : (Machine.extendedHandler.heap.firstOwn "has" [⟨76⟩, ⟨74⟩, ⟨0⟩]).all
      (fun d => !d.isAccessor) = true := by decide +kernel
  -- from here on the machine is not evaluated any more
  generalize Machine.extendedHandler = m at *
  simp only [List.map_cons, List.map_nil, List.cons.injEq, Prod.mk.injEq, and_true] at hlinks
  obtain ⟨⟨hproxy₁, hparent₁⟩, ⟨hproxy₂, hparent₂⟩, hproxy₃, hparent₃⟩ := hlinks
  have hlive {i : Nat} (hi : i < 79) : i < m.heap.objects.size := hi.trans_eq hsize.symm
  have hchain : m.heap.Chain (some ⟨76⟩) [⟨76⟩, ⟨74⟩, ⟨0⟩] := by
    refine .link (hlive (by decide)) hproxy₁ ?_
    rw [hparent₁]
    refine .link (hlive (by decide)) hproxy₂ ?_
    rw [hparent₂]
    refine .link (hlive (by decide)) hproxy₃ ?_
    rw [hparent₃]
    exact .done
  obtain ⟨-, htargets, -, hroot, hwalks⟩ := walks_end rfl (.single hbefore)
  obtain ⟨target, traps, htarget⟩ : ∃ target traps, m.heap.kind ⟨78⟩ = .proxy target traps := by
    cases hkind' : m.heap.kind ⟨78⟩ with
    | proxy target traps => exact ⟨target, traps, rfl⟩
    | _ =>
      have hkind' : (m.heap.object ⟨78⟩).kind = _ := hkind'
      simp [Object.isProxy, hkind'] at hkind
  obtain ⟨l, hl, -, hassign⟩ := hwalks ⟨76⟩ "has" (hlive (by decide))
    fun q => hchain.isProxy_of_rise
  rw [hl.unique hchain] at hassign
  obtain ⟨-, hset⟩ := hassign fun d hd => by
    rw [hd] at hplain
    simpa using hplain
  obtain ⟨res, hended, hres⟩ := hset .null (fun _ h => Value.noConfusion h)
  rw [hsize] at hres
  exact ⟨.single hbefore, ⟨target, traps, htarget, (htargets _ _ _ htarget).1⟩, (hroot _).2, hcycle,
    hchain, res, hended, hres⟩

end ObjectModel
