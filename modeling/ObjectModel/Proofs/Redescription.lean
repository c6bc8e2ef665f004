import ObjectModel.Proofs.Fuel
import ObjectModel.Proofs.HiddenTarget
import ObjectModel.Proofs.Layers

/-!
# Descriptions read and written again

A description is read field by field, and each field that the object does not have itself is looked
for in its prototypes.  That can run user code, if a proxy stands among them.  As long as no field
is found there (`Machine.LacksFields`) and the object stays as it is, the descriptor is the one that
the object's own values say (`toDescriptor_own`).

Nobody refers to a new object, so it stays: the descriptor that it was made from is read back, or a
type error is thrown if that is not the descriptor of one kind of property with functions as its
accessors.  In the other direction, what is read from an object and described again has the fields
of that object (`descriptions_invert`).
-/

namespace ObjectModel

open Relation

/-! ## Fields as values -/

/-- The values are those of a description: the accessors are undefined or functions, and only one
kind of property is described. -/
structure Heap.Describes (h : Heap) (v : Key → Option Value) : Prop where
  accessors : ∀ k : Key, k = "get" ∨ k = "set" → ∀ w, v k = some w →
    w = .undefined ∨ ∃ f, h.callable? w = some f
  kind : ((v "get").isSome || (v "set").isSome) = false ∨
    ((v "value").isSome || (v "writable").isSome) = false

namespace Descriptor

/-- The descriptor that the values of fields describe. -/
def ofFields (h : Heap) (v : Key → Option Value) : Descriptor where
  value := v "value"
  writable := (v "writable").map Value.truthy
  get := (v "get").map h.callable?
  set := (v "set").map h.callable?
  enumerable := (v "enumerable").map Value.truthy
  configurable := (v "configurable").map Value.truthy

/-- The value of a field after it was read as an attribute. -/
def reread (k : Key) (v : Value) : Value :=
  if k = "writable" ∨ k = "enumerable" ∨ k = "configurable" then .bool v.truthy else v

variable {h : Heap} {v : Key → Option Value} {d : Descriptor}

theorem callable?_eq_some {w : Value} {f : Ref} (hw : h.callable? w = some f) : w = .object f := by
  cases w with
  | object r =>
    unfold Heap.callable? at hw
    dsimp only at hw
    split at hw
    · cases hw
      rfl
    · cases hw
  | _ => cases hw

/-- An accessor is described by the value that it was read from. -/
theorem accessorValue_callable? {w : Value} (hw : w = .undefined ∨ ∃ f, h.callable? w = some f) :
    accessorValue (h.callable? w) = w := by
  rcases hw with rfl | ⟨f, hf⟩
  · rfl
  · rw [hf]
    exact (callable?_eq_some hf).symm

/-- The fields that say a descriptor say it in a heap where its accessors can be called. -/
theorem ofFields_field? (hd : d.Callable h) : ofFields h d.field? = d := by
  obtain ⟨hvalue, hwritable, hget, hset, henumerable, hconfigurable⟩ := d.field?_eq
  have htruthy (b : Option Bool) : (b.map Value.bool).map Value.truthy = b := by cases b <;> rfl
  have haccessor {f : Option (Option Ref)}
      (hf : ∀ g, f = some (some g) → h.callable? (.object g) = some g) :
      (f.map accessorValue).map h.callable? = f := by
    rcases f with _ | _ | g
    · rfl
    · rfl
    · exact congrArg some (hf g rfl)
  unfold ofFields
  rw [hvalue, hwritable, hget, hset, henumerable, hconfigurable, htruthy, htruthy, htruthy,
    haccessor fun g hg => hd g (.inl hg), haccessor fun g hg => hd g (.inr hg)]

/-- A descriptor says a description if it is consistent and its accessors can be called. -/
theorem describes_field? : h.Describes d.field? ↔ d.isConsistent = true ∧ d.Callable h := by
  obtain ⟨hvalue, hwritable, hget, hset, -, -⟩ := d.field?_eq
  have haccessor (f : Option (Option Ref)) :
      (∀ w, f.map accessorValue = some w → w = .undefined ∨ ∃ g, h.callable? w = some g) ↔
        ∀ g, f = some (some g) → h.callable? (.object g) = some g := by
    constructor
    · rintro hf g rfl
      obtain hw | ⟨g', hg'⟩ := hf (.object g) rfl
      · cases hw
      · rw [hg', Value.object.inj (callable?_eq_some hg')]
    · intro hf w hw
      rcases f with _ | _ | g
      · cases hw
      · cases hw
        exact .inl rfl
      · cases hw
        exact .inr ⟨g, hf g rfl⟩
  have hkind : (((d.field? "get").isSome || (d.field? "set").isSome) = false ∨
      ((d.field? "value").isSome || (d.field? "writable").isSome) = false) ↔
        d.isConsistent = true := by
    rw [hvalue, hwritable, hget, hset]
    simp only [Option.isSome_map, isConsistent, isData, isAccessor, Bool.not_eq_true',
      Bool.and_eq_false_iff]
    exact or_comm
  constructor
  · rintro ⟨haccessors, hone⟩
    refine ⟨hkind.1 hone, fun g hg => ?_⟩
    rcases hg with hg | hg
    · exact (haccessor d.get).1 (hget ▸ haccessors "get" (.inl rfl)) g hg
    · exact (haccessor d.set).1 (hset ▸ haccessors "set" (.inr rfl)) g hg
  · rintro ⟨hconsistent, hcallable⟩
    refine ⟨?_, hkind.2 hconsistent⟩
    rintro k (rfl | rfl)
    · rw [hget]
      exact (haccessor d.get).2 fun g hg => hcallable g (.inl hg)
    · rw [hset]
      exact (haccessor d.set).2 fun g hg => hcallable g (.inr hg)

/-- What is read from a description has its fields. -/
theorem field?_ofFields (hv : h.Describes v) {k : Key} (hk : k ∈ fieldNames) :
    (ofFields h v).field? k = (v k).map (reread k) := by
  obtain ⟨hvalue, hwritable, hget, hset, henumerable, hconfigurable⟩ := (ofFields h v).field?_eq
  have haccessor {k : Key} (hk : k = "get" ∨ k = "set") :
      ((v k).map h.callable?).map accessorValue = v k := by
    cases hw : v k with
    | none => rfl
    | some w => exact congrArg some (accessorValue_callable? (hv.accessors k hk w hw))
  have hsame {k : Key} (hk : ¬ (k = "writable" ∨ k = "enumerable" ∨ k = "configurable")) :
      (v k).map (reread k) = v k := by
    cases v k with
    | none => rfl
    | some w => exact congrArg some (if_neg hk)
  have hboolean {k : Key} (hk : k = "writable" ∨ k = "enumerable" ∨ k = "configurable") :
      (v k).map (reread k) = ((v k).map Value.truthy).map Value.bool := by
    cases v k with
    | none => rfl
    | some w => exact congrArg some (if_pos hk)
  simp only [fieldNames, List.mem_cons, List.not_mem_nil, or_false] at hk
  rcases hk with rfl | rfl | rfl | rfl | rfl | rfl
  · rw [hvalue, hsame (by decide)]
    rfl
  · rw [hwritable, hboolean (by decide)]
    rfl
  · rw [hget, hsame (by decide)]
    exact haccessor (.inl rfl)
  · rw [hset, hsame (by decide)]
    exact haccessor (.inr rfl)
  · rw [henumerable, hboolean (by decide)]
    rfl
  · rw [hconfigurable, hboolean (by decide)]
    rfl

theorem field?_of_not_mem (d : Descriptor) {k : Key} (hk : k ∉ fieldNames) : d.field? k = none := by
  simp only [fieldNames, List.mem_cons, List.not_mem_nil, or_false, not_or] at hk
  have hvalue := lookup_field k "value" id d.value
  simp only [id] at hvalue
  simp only [field?, fields, List.lookup_append, hvalue, lookup_field]
  simp [hk]

end Descriptor

/-! ## Reading field by field -/

/-- The run throws a type error. -/
def Run.Refuses {α : Type} (x : Run α) (m : Machine) : Prop :=
  ∃ e m', x m = .error (.thrown e) m' ∧ Session.errorKind? m'.heap e = some .typeError

namespace Run.Refuses

variable {α β : Type} {x : Run α} {f : α → Run β} {m m' : Machine} {a : α}

theorem fail {fault : Fault} (hfault : fault.kind = .typeError) (m : Machine) :
    Refuses (Run.fail fault : Run α) m := by
  obtain ⟨e, m', hfail, -, hkind⟩ := fail_apply (α := α) fault m
  exact ⟨e, m', hfail, hkind.trans (congrArg some hfault)⟩

theorem congr {y : Run α} (hy : y.Refuses m') (h : x m = y m') : x.Refuses m := by
  obtain ⟨e, m'', hy, hkind⟩ := hy
  exact ⟨e, m'', h.trans hy, hkind⟩

protected theorem bind (hx : x.Refuses m) : (x >>= f).Refuses m := by
  obtain ⟨e, m', hx, hkind⟩ := hx
  exact ⟨e, m', bind_error hx, hkind⟩

theorem after (hx : x m = .ok a m') (hf : (f a).Refuses m') : (x >>= f).Refuses m :=
  hf.congr (bind_ok hx)

end Run.Refuses

section Reading

variable {eng : Engine} {r : Ref} {m : Machine} {h : Heap} {v : Key → Option Value}

theorem toAccessor_apply (half : AccessorHalf) {w : Value}
    (hw : w = .undefined ∨ ∃ f, m.heap.callable? w = some f) :
    Engine.toAccessor half w m = .ok (m.heap.callable? w) m := by
  have hvalue : Engine.toAccessor half (Descriptor.accessorValue (m.heap.callable? w)) m = _ :=
    toAccessor_accessorValue fun g hg => by rwa [← Descriptor.callable?_eq_some hg]
  rwa [Descriptor.accessorValue_callable? hw] at hvalue

theorem toAccessor_refuses (half : AccessorHalf) {w : Value}
    (hw : ¬ (w = .undefined ∨ ∃ f, m.heap.callable? w = some f)) :
    (Engine.toAccessor half w).Refuses m := by
  have hdefined : w.isUndefined = false := by
    cases w with
    | undefined => exact absurd (.inl rfl) hw
    | _ => rfl
  have hnone : m.heap.callable? w = none := by
    rw [Option.eq_none_iff_forall_ne_some]
    exact fun f hf => hw (.inr ⟨f, hf⟩)
  have hkind : (Fault.accessorNotCallable half).kind = .typeError := rfl
  refine (Run.Refuses.fail hkind m).congr ?_
  simp only [Engine.toAccessor, hdefined, Bool.false_eq_true, if_false, Run.bind_apply,
    Run.callable?, hnone]

-- `P` holds of all machines that the reading passes through
variable {P : Machine → Prop}
  (hfield : ∀ m, P m → ∀ k ∈ Descriptor.fieldNames, ∃ m', eng.field? r k m = .ok (v k) m' ∧ P m')
  (hcall : ∀ m, P m → ∀ k w, v k = some w → m.heap.callable? w = h.callable? w)

include hfield hcall

/-- An accessor is read, or refused if it is not callable. -/
theorem accessorField?_of_fields (hm : P m) {k : Key} (hk : k ∈ Descriptor.fieldNames)
    (half : AccessorHalf) :
    ((∀ w, v k = some w → w = .undefined ∨ ∃ f, h.callable? w = some f) ∧
      ∃ m', eng.accessorField? r k half m = .ok ((v k).map h.callable?) m' ∧ P m') ∨
    ¬ (∀ w, v k = some w → w = .undefined ∨ ∃ f, h.callable? w = some f) ∧
      (eng.accessorField? r k half).Refuses m := by
  obtain ⟨m', hread, hm'⟩ := hfield m hm k hk
  unfold Engine.accessorField?
  cases hv : v k with
  | none =>
    rw [hv] at hread
    exact .inl ⟨fun w hw => (by cases hw), m', Run.bind_ok hread, hm'⟩
  | some w =>
    rw [hv] at hread
    have hsame := hcall m' hm' k w hv
    by_cases hw : w = .undefined ∨ ∃ f, h.callable? w = some f
    · have happly := toAccessor_apply (m := m') half (hsame ▸ hw)
      rw [hsame] at happly
      refine .inl ⟨fun w' hw' => ?_, m', ?_, hm'⟩
      · cases hw'
        exact hw
      · exact (Run.bind_ok hread).trans (Run.bind_ok happly)
    · refine .inr ⟨fun hall => hw (hall w rfl), .after hread ?_⟩
      exact (toAccessor_refuses half (hsame ▸ hw)).bind

/-- **The descriptor is what the values of the fields describe**, and a type error is thrown if they
describe none. -/
theorem toDescriptor_of_fields (hm : P m) :
    (h.Describes v ∧
      ∃ m', eng.toDescriptor (.object r) m = .ok (.ofFields h v) m' ∧ P m') ∨
    ¬ h.Describes v ∧ (eng.toDescriptor (.object r)).Refuses m := by
  obtain ⟨m₁, henumerable, hm₁⟩ := hfield m hm "enumerable" (by decide)
  obtain ⟨m₂, hconfigurable, hm₂⟩ := hfield m₁ hm₁ "configurable" (by decide)
  obtain ⟨m₃, hvalue, hm₃⟩ := hfield m₂ hm₂ "value" (by decide)
  obtain ⟨m₄, hwritable, hm₄⟩ := hfield m₃ hm₃ "writable" (by decide)
  rcases accessorField?_of_fields hfield hcall hm₄ (k := "get") (by decide) .getter with
    ⟨hgetter, m₅, hget, hm₅⟩ | ⟨hgetter, hget⟩
  · rcases accessorField?_of_fields hfield hcall hm₅ (k := "set") (by decide) .setter with
      ⟨hsetter, m₆, hset, hm₆⟩ | ⟨hsetter, hset⟩
    · have hread : eng.toDescriptor (.object r) m =
          (if (Descriptor.ofFields h v).isAccessor && (Descriptor.ofFields h v).isData then
            Run.fail .descriptorOfBothKinds else pure (.ofFields h v) : Run Descriptor) m₆ :=
        (Run.bind_ok henumerable).trans ((Run.bind_ok hconfigurable).trans
          ((Run.bind_ok hvalue).trans ((Run.bind_ok hwritable).trans ((Run.bind_ok hget).trans
            (Run.bind_ok hset)))))
      have hkind : ((Descriptor.ofFields h v).isAccessor && (Descriptor.ofFields h v).isData) =
          (((v "get").isSome || (v "set").isSome) &&
            ((v "value").isSome || (v "writable").isSome)) := by
        simp only [Descriptor.ofFields, Descriptor.isAccessor, Descriptor.isData,
          Option.isSome_map]
      cases hboth : ((v "get").isSome || (v "set").isSome) &&
          ((v "value").isSome || (v "writable").isSome) with
      | false =>
        rw [hkind, hboth] at hread
        refine .inl ⟨⟨?_, Bool.and_eq_false_iff.1 hboth⟩, m₆, hread, hm₆⟩
        rintro k (rfl | rfl)
        · exact hgetter
        · exact hsetter
      | true =>
        rw [hkind, hboth] at hread
        have hfault : Fault.descriptorOfBothKinds.kind = .typeError := rfl
        refine .inr ⟨fun hdescribes => ?_, (Run.Refuses.fail hfault m₆).congr hread⟩
        rw [Bool.and_eq_false_iff.2 hdescribes.kind] at hboth
        cases hboth
    · exact .inr ⟨fun hdescribes => hsetter (hdescribes.accessors "set" (.inr rfl)),
        .after henumerable (.after hconfigurable (.after hvalue (.after hwritable (.after hget
          (.bind hset)))))⟩
  · exact .inr ⟨fun hdescribes => hgetter (hdescribes.accessors "get" (.inl rfl)),
      .after henumerable (.after hconfigurable (.after hvalue (.after hwritable (.bind hget))))⟩

end Reading

/-! ## Looking for fields in prototypes -/

/-- The second machine comes after the first by looking for fields in vain. -/
def Machine.Seeks (n : Nat) (p : Option Ref) : Machine → Machine → Prop :=
  ReflTransGen fun m m' => ∃ q k, p = some q ∧ k ∈ Descriptor.fieldNames ∧
    (engine n).hasProperty q k m = .ok false m'

/-- However often one looks, the object and its prototypes have no property named like a field. -/
def Machine.LacksFields (n : Nat) (p : Option Ref) (m : Machine) : Prop :=
  ∀ m', m.Seeks n p m' → ∀ q k, p = some q → k ∈ Descriptor.fieldNames →
    ∃ m'', (engine n).hasProperty q k m' = .ok false m''

/-- Objects that are no proxies give the same answer however often they are asked. -/
theorem Heap.FieldFree.lacksFields {m : Machine} {l : List Ref} (hfree : m.heap.FieldFree l)
    {n : Nat} (hn : l.length < n) : m.LacksFields n (some Intrinsic.objectPrototype.ref) := by
  have hlooks {k : Key} (hk : k ∈ Descriptor.fieldNames) :
      (engine n).hasProperty Intrinsic.objectPrototype.ref k m = .ok false m := by
    rw [← hostedEngine_none, hosted_hasProperty hfree.chain hn, hfree.absent k hk]
    rfl
  intro m' hseeks
  have hsame : m' = m := by
    induction hseeks with
    | refl => rfl
    | tail _ hstep ih =>
      obtain ⟨q, k, hq, hk, hlook⟩ := hstep
      cases hq
      rw [ih, hlooks hk] at hlook
      cases hlook
      rfl
  subst hsame
  rintro q k hq hk
  cases hq
  exact ⟨_, hlooks hk⟩

/-- A discipline holds while fields are looked for in an object that it knows. -/
theorem Discipline.follows_of_seeks {D : Discipline} (hscripted : D.scripted)
    (hall : ∀ d, D.allows d) {m m' : Machine} (hm : D.Sound m) {n : Nat} {p : Option Ref}
    (hp : ∀ q, p = some q → D.knows m.size q) (h : m.Seeks n p m') : D.Follows m m' := by
  induction h with
  | refl => exact .refl hm
  | @tail m₁ m₂ _ hstep ih =>
    obtain ⟨q, k, hq, -, hlook⟩ := hstep
    have hadmits : D.Admits m₁.size (Method.hasProperty q k) := by
      rintro r ⟨⟩
      exact D.knows_mono ih.grows (hp q hq)
    have hmeets := (engine_meets hscripted hall n).answers _ m₁ hadmits ih.sound
    rw [show (engine n).answer (.hasProperty q k) m₁ = .ok false m₂ from hlook] at hmeets
    exact ih.trans hmeets.1

/-! ## Functions stay functions -/

theorem Heap.rootWithin_eq_self {h : Heap} {r : Ref} (hproxy : (h.object r).isProxy = false)
    (fuel : Nat) : h.rootWithin fuel r = r := by
  cases fuel with
  | zero => rfl
  | succ fuel =>
    unfold Heap.rootWithin
    split
    · next hkind => exact absurd hkind (Heap.kind_ne_proxy hproxy _ _)
    · rfl

/-- The objects under a proxy are older. -/
theorem Machine.Layered.index_le {m : Machine} (hlayered : m.Layered) {p q : Ref}
    (h : ReflTransGen m.heap.Target p q) : q.index ≤ p.index := by
  induction h with
  | refl => exact Nat.le_refl _
  | tail _ hstep ih =>
    obtain ⟨traps, hkind⟩ := hstep
    exact Nat.le_trans (Nat.le_of_lt (hlayered.targets _ _ traps hkind)) ih

namespace Machine.Onward

variable {m m' : Machine} (h : m.Onward m') (hlayered : m.Layered)

include h hlayered

/-- The way through proxies is the same later. -/
theorem rootWithin_eq {fuel fuel' : Nat} {r : Ref} (hlive : r.index < m.size)
    (hfuel : r.index ≤ fuel) (hfuel' : r.index ≤ fuel') :
    m'.heap.rootWithin fuel' r = m.heap.rootWithin fuel r := by
  induction fuel generalizing r fuel' with
  | zero =>
    have hproxy := (hlayered.rootWithin hfuel).2
    exact Heap.rootWithin_eq_self ((KeepsProxies.of_onward h).isProxy_eq_false hlive hproxy) _
  | succ fuel ih =>
    cases hkind : m.heap.kind r with
    | proxy target traps =>
      have holder := hlayered.targets r target traps hkind
      have hkind' : m'.heap.kind r = .proxy target traps := (hkind ▸ h.kinds r hlive).proxy
      obtain ⟨fuel', rfl⟩ : ∃ n, fuel' = n + 1 := ⟨fuel' - 1, by omega⟩
      simp only [Heap.rootWithin, hkind, hkind']
      exact ih (by omega) (by omega) (by omega)
    | _ =>
      have hproxy : (m.heap.object r).isProxy = false := by
        simp [Object.isProxy, show (m.heap.object r).kind = _ from hkind]
      rw [Heap.rootWithin_eq_self ((KeepsProxies.of_onward h).isProxy_eq_false hlive hproxy),
        Heap.rootWithin_eq_self hproxy]

/-- **What can be called is the same later.** -/
theorem callable?_eq {w : Value} (hw : ∀ r, refers w r → r.index < m.size) :
    m'.heap.callable? w = m.heap.callable? w := by
  cases w with
  | object r =>
    have hlive : r.index < m.size := hw r rfl
    have hroot : m'.heap.root r = m.heap.root r :=
      h.rootWithin_eq hlayered hlive (Nat.le_of_lt hlive)
        (Nat.le_of_lt (Nat.lt_of_lt_of_le hlive h.grows))
    have hkinds := h.kinds (m.heap.root r)
      (Nat.lt_of_le_of_lt (hlayered.index_le (hlayered.root r).1) hlive)
    simp only [Heap.callable?, hroot]
    generalize m.heap.kind (m.heap.root r) = before at hkinds
    generalize m'.heap.kind (m.heap.root r) = after at hkinds
    cases hkinds <;> rfl
  | _ => rfl

end Machine.Onward

/-! ## The own fields of an object -/

namespace Object

/-- The value of a field among the own properties. -/
def fieldValue? (o : Object) (k : Key) : Option Value :=
  if k ∈ Descriptor.fieldNames then (o.ownDescriptor k).bind Descriptor.value else none

/-- The own properties that are named like a field have a value. -/
def HoldsFields (o : Object) : Prop :=
  ∀ k ∈ Descriptor.fieldNames, ∀ d, o.ownDescriptor k = some d → ∃ w, d.value = some w

end Object

section Own

variable {m : Machine} {r : Ref} {n : Nat} {k : Key} (hproxy : (m.heap.object r).isProxy = false)

include hproxy

theorem engine_field?_own {d : Descriptor} (hd : (m.heap.object r).ownDescriptor k = some d)
    {w : Value} (hw : d.value = some w) : (engine (n + 2)).field? r k m = .ok (some w) m := by
  have hown : (engine (n + 1)).getOwnProperty r k m = .ok (some d) m := by
    rw [← hostedEngine_none, hosted_getOwnProperty hproxy, hd]
  have hhas : (engine (n + 2)).hasProperty r k m = .ok true m := by
    refine (Run.kind_bind_of_not_proxy hproxy _ _).trans ?_
    exact Run.bind_ok hown
  have hget : (engine (n + 2)).get r k m = .ok w m := by
    refine (Run.kind_bind_of_not_proxy hproxy _ _).trans ?_
    refine (Run.bind_ok hown).trans ?_
    simp only [hw]
    rfl
  exact (Run.bind_ok hhas).trans (Run.bind_ok hget)

/-- A field that the object does not have is looked for in its prototype. -/
theorem engine_field?_missing (hd : (m.heap.object r).ownDescriptor k = none) {m' : Machine}
    (hprototype : (m.heap.object r).prototype = none ∧ m' = m ∨
      ∃ q, (m.heap.object r).prototype = some q ∧
        (engine (n + 1)).hasProperty q k m = .ok false m') :
    (engine (n + 2)).field? r k m = .ok none m' := by
  have hown : (engine (n + 1)).getOwnProperty r k m = .ok none m := by
    rw [← hostedEngine_none, hosted_getOwnProperty hproxy, hd]
  have hparent : m.heap.prototypeOf r = (m.heap.object r).prototype := by
    rw [Heap.prototypeOf, Heap.root_eq_self hproxy]
  have hhas : (engine (n + 2)).hasProperty r k m = .ok false m' := by
    refine (Run.kind_bind_of_not_proxy hproxy _ _).trans ((Run.bind_ok hown).trans ?_)
    simp only [Run.bind_apply, Run.heap, hparent]
    rcases hprototype with ⟨hnone, rfl⟩ | ⟨q, hq, hlook⟩
    · rw [hnone]
      rfl
    · rw [hq]
      exact hlook
  exact Run.bind_ok hhas

end Own

/-- An object that stays as it is while fields are looked for in its prototype. -/
structure Machine.Stays (n : Nat) (r : Ref) (m : Machine) : Prop where
  live : r.index < m.size
  proxy : (m.heap.object r).isProxy = false
  fields : (m.heap.object r).HoldsFields
  kept : ∀ m', m.Seeks n (m.heap.object r).prototype m' →
    m.Onward m' ∧ (m.heap.object r).Kept (m'.heap.object r)

/-- **The descriptor that is read from an object is the one that its own values describe**, if no
field is found in its prototypes. -/
theorem toDescriptor_own {m : Machine} {r : Ref} {n : Nat} (hstays : m.Stays (n + 1) r)
    (hlacks : m.LacksFields (n + 1) (m.heap.object r).prototype) (hlayered : m.Layered)
    (hvalues : ∀ k w, (m.heap.object r).fieldValue? k = some w →
      ∀ q, refers w q → q.index < m.size) :
    (m.heap.Describes (m.heap.object r).fieldValue? ∧
      ∃ m', (engine (n + 2)).toDescriptor (.object r) m =
        .ok (.ofFields m.heap (m.heap.object r).fieldValue?) m') ∨
    ¬ m.heap.Describes (m.heap.object r).fieldValue? ∧
      ((engine (n + 2)).toDescriptor (.object r)).Refuses m := by
  refine Or.imp_left ?_ (toDescriptor_of_fields
    (P := fun m' => m.Seeks (n + 1) (m.heap.object r).prototype m')
    (fun m₁ hm₁ k hk => ?_) (fun m₁ hm₁ k w hw => ?_) .refl)
  · rintro ⟨hdescribes, m', hok, -⟩
    exact ⟨hdescribes, m', hok⟩
  · obtain ⟨honward, hprototype, hstored⟩ := hstays.kept m₁ hm₁
    have hproxy : (m₁.heap.object r).isProxy = false :=
      (Machine.KeepsProxies.of_onward honward).isProxy_eq_false hstays.live hstays.proxy
    have hlength : k ≠ .length := by
      rintro rfl
      revert hk
      decide
    have hown : (m₁.heap.object r).ownDescriptor k = (m.heap.object r).ownDescriptor k := by
      rw [Object.ownDescriptor_eq fun _ => hlength, Object.ownDescriptor_eq fun _ => hlength, hstored]
    have hvalue : (m.heap.object r).fieldValue? k =
        ((m.heap.object r).ownDescriptor k).bind Descriptor.value := if_pos hk
    cases hd : (m.heap.object r).ownDescriptor k with
    | some d =>
      obtain ⟨w, hw⟩ := hstays.fields k hk d hd
      rw [hvalue, hd, Option.bind_some, hw]
      exact ⟨m₁, engine_field?_own hproxy (hown.trans hd) hw, hm₁⟩
    | none =>
      rw [hvalue, hd, Option.bind_none]
      cases hq : (m.heap.object r).prototype with
      | none =>
        exact ⟨m₁, engine_field?_missing hproxy (hown.trans hd) (.inl ⟨hprototype.trans hq, rfl⟩),
          hq ▸ hm₁⟩
      | some q =>
        obtain ⟨m₂, hlook⟩ := hlacks m₁ hm₁ q k hq hk
        exact ⟨m₂, engine_field?_missing hproxy (hown.trans hd)
          (.inr ⟨q, hprototype.trans hq, hlook⟩), (hq ▸ hm₁).tail ⟨q, k, rfl, hk, hlook⟩⟩
  · exact (hstays.kept m₁ hm₁).1.callable?_eq hlayered (hvalues k w hw)

/-- What is read from an object and described again has the fields of that object, the boolean ones
as booleans; a type error is thrown if the object is no description. -/
def Machine.Redescribes (n : Nat) (r : Ref) (m : Machine) : Prop :=
  (m.heap.Describes (m.heap.object r).fieldValue? ∧ ∃ d m' s m'',
    (engine n).toDescriptor (.object r) m = .ok d m' ∧ Engine.fromDescriptor d m' = .ok s m'' ∧
      ∀ k, (m''.heap.object s).ownDescriptor k =
        ((m.heap.object r).fieldValue? k).map fun w => .plain (Descriptor.reread k w)) ∨
  ¬ m.heap.Describes (m.heap.object r).fieldValue? ∧
    ((engine n).toDescriptor (.object r)).Refuses m

theorem redescribes_of_stays {m : Machine} {r : Ref} {n : Nat} (hstays : m.Stays (n + 1) r)
    (hlacks : m.LacksFields (n + 1) (m.heap.object r).prototype) (hlayered : m.Layered)
    (hvalues : ∀ k w, (m.heap.object r).fieldValue? k = some w →
      ∀ q, refers w q → q.index < m.size) : m.Redescribes (n + 2) r := by
  refine (toDescriptor_own hstays hlacks hlayered hvalues).imp_left ?_
  rintro ⟨hdescribes, m', hread⟩
  refine ⟨hdescribes, _, m', _, _, hread, fromDescriptor_apply _ m', fun k => ?_⟩
  rw [Machine.heap_withHeap, show ((m'.heap.allocate _).2.object ⟨m'.size⟩) = _ from
    m'.heap.object_allocate_self _, ownDescriptor_describing]
  by_cases hk : k ∈ Descriptor.fieldNames
  · rw [Descriptor.field?_ofFields hdescribes hk, Option.map_map]
    rfl
  · rw [Descriptor.field?_of_not_mem _ hk, Object.fieldValue?, if_neg hk]
    rfl

/-! ## New objects -/

theorem ownDescriptor_plain {ps : List (Key × Value)} {k : Key} {d : Descriptor}
    (hd : (Object.plain ps).ownDescriptor k = some d) : ∃ w, (k, w) ∈ ps ∧ d.value = some w := by
  obtain ⟨p, hp, rfl⟩ := Option.map_eq_some_iff.1
    (show ((Engine.plainTable ps).find? k).map Property.toDescriptor = some d from hd)
  obtain ⟨w, hmem, rfl⟩ := find?_plainTable hp
  exact ⟨w, hmem, rfl⟩

theorem Machine.Grown.onward {m m' : Machine} (h : m.Grown m') : m.Onward m' where
  grows := h.size_le
  kinds r hr := by
    rw [show m'.heap.kind r = m.heap.kind r from congrArg Object.kind (h.object hr)]
    exact .same _

section New

variable {m m₁ : Machine} {r : Ref} {ps : List (Key × Value)}
  (hnew : Engine.newPlainObject ps m = .ok r m₁)

include hnew

theorem new_newPlainObject : m₁.heap.object r = .plain ps ∧ r.index < m₁.size ∧ m.Grown m₁ := by
  rw [newPlainObject_apply] at hnew
  cases hnew
  refine ⟨m.heap.object_allocate_self _, ?_, .allocate m _⟩
  rw [Machine.size_withHeap, Heap.size_allocate]
  exact Nat.lt_succ_self _

variable (hm : m.Attained)

include hm

theorem layered_newPlainObject : m₁.Layered := by
  obtain ⟨-, -, hgrown⟩ := new_newPlainObject hnew
  rw [newPlainObject_apply] at hnew
  cases hnew
  refine hm.layered.extend hgrown.size_le
    (fun r hr => .inl (congrArg Object.kind (hgrown.object hr))) fun r target traps hr hkind => ?_
  have hkind : ((m.heap.allocate (.plain ps)).2.object r).kind = .proxy target traps := hkind
  rw [Heap.object_allocate] at hkind
  split at hkind
  · cases hkind
  · rw [Heap.object_of_size_le hr] at hkind
    cases hkind

variable (hps : ∀ e ∈ ps, ∀ r, refers e.2 r → r.index < m.size)

include hps

/-- Nobody refers to a new object, so it stays. -/
theorem stays_newPlainObject (n : Nat) : m₁.Stays n r := by
  obtain ⟨hobject, hlive, -⟩ := new_newPlainObject hnew
  obtain ⟨hsound, hsize⟩ := hm.soundKinds
  have hseen : Discipline.places.Seen m.size (Object.plain ps) := by
    have hbare : Discipline.places.Seen m.size
        (Object.new (some Intrinsic.objectPrototype.ref) .ordinary) :=
      Discipline.seen_new.2 ⟨Discipline.seen_some.2 Discipline.seen_intrinsic, fun r hr => hr.elim⟩
    refine hbare.withProperties (Discipline.Seen.plainTable (Discipline.seen_list.2 fun e he => ?_))
    exact Discipline.seen_pair.2 ⟨Discipline.seen_key, fun r hr => .inl (hps e he r hr)⟩
  have hsecluded := Discipline.sound_secluding hsound hsize hseen
  refine ⟨hlive, ?_, ?_, fun m' hseeks => ?_⟩
  · rw [hobject]
    rfl
  · rw [hobject]
    intro k _ d hd
    obtain ⟨w, -, hw⟩ := ownDescriptor_plain hd
    exact ⟨w, hw⟩
  · rw [hobject] at hseeks
    rw [newPlainObject_apply] at hnew
    cases hnew
    have hfollows := Discipline.follows_of_seeks trivial (fun _ => trivial) hsecluded
      (fun q hq => by
        cases hq
        exact Discipline.knows_intrinsic _ _ _) hseeks
    exact ⟨hfollows.keeps.toOnward, hfollows.keeps.kept hlive⟩

omit hm in
theorem values_newPlainObject {k : Key} {w : Value}
    (hw : (m₁.heap.object r).fieldValue? k = some w) {q : Ref} (hq : refers w q) :
    q.index < m₁.size := by
  obtain ⟨hobject, -, hgrown⟩ := new_newPlainObject hnew
  rw [hobject, Object.fieldValue?] at hw
  split at hw
  · obtain ⟨d, hd, hw⟩ := Option.bind_eq_some_iff.1 hw
    obtain ⟨w', hmem, hw'⟩ := ownDescriptor_plain hd
    cases hw.symm.trans hw'
    exact Nat.lt_of_lt_of_le (hps _ hmem q hq) hgrown.size_le
  · cases hw

end New

/-- A description refers to what the descriptor refers to. -/
theorem Descriptor.refers_fields {d : Descriptor} {e : Key × Value} (he : e ∈ d.fields) {r : Ref}
    (hr : refers e.2 r) : refers d r := by
  have haccessor {f : Option (Option Ref)} {g : Option Ref} (hg : f = some g)
      (hr : refers (accessorValue g) r) : refers f r := by
    cases g with
    | none => cases hr
    | some g => exact ⟨_, hg, g, rfl, Value.object.inj hr⟩
  simp only [fields, List.mem_append, Option.mem_toList, Option.map_eq_some_iff] at he
  rcases he with ((((⟨v, hv, rfl⟩ | ⟨b, -, rfl⟩) | ⟨g, hg, rfl⟩) | ⟨g, hg, rfl⟩) | ⟨b, -, rfl⟩) |
    ⟨b, -, rfl⟩
  · exact .inl ⟨v, hv, hr⟩
  · cases hr
  · exact .inr (.inl (haccessor hg hr))
  · exact .inr (.inr (haccessor hg hr))
  · cases hr
  · cases hr

theorem Descriptor.fieldValue?_describing (d : Descriptor) :
    d.describing.fieldValue? = d.field? := by
  funext k
  by_cases hk : k ∈ fieldNames
  · rw [Object.fieldValue?, if_pos hk, ownDescriptor_describing]
    cases d.field? k <;> rfl
  · rw [Object.fieldValue?, if_neg hk, d.field?_of_not_mem hk]

/-- **Descriptors and the objects that describe them turn into each other.**  As long as no name of a
field is found in the prototypes, a descriptor that is described by an object is read back from it,
with all that it mentions, if it is of one kind and its accessors are undefined or can be called, and
otherwise a type error is thrown.  What is read from an object that stays as it is meanwhile, and
described again, has the fields of that object, the boolean ones as booleans; and a new object
stays. -/
theorem descriptions_invert {m : Machine} (hm : m.Attained) (n : Nat) :
    (∀ d : Descriptor, (∀ r, refers d r → r.index < m.size) → ∀ r m₁,
      Engine.fromDescriptor d m = .ok r m₁ →
      m₁.LacksFields (n + 1) (some Intrinsic.objectPrototype.ref) →
        ((d.isConsistent = true ∧ d.Callable m.heap) ∧
          ∃ m₂, (engine (n + 2)).toDescriptor (.object r) m₁ = .ok d m₂) ∨
        ¬ (d.isConsistent = true ∧ d.Callable m.heap) ∧
          ((engine (n + 2)).toDescriptor (.object r)).Refuses m₁) ∧
    (∀ o : Ref, o.index < m.size → (m.heap.object o).isProxy = false →
      (m.heap.object o).HoldsFields →
      m.LacksFields (n + 1) (m.heap.object o).prototype →
      (∀ m', m.Seeks (n + 1) (m.heap.object o).prototype m' →
        (m.heap.object o).Kept (m'.heap.object o)) →
      m.Redescribes (n + 2) o) ∧
    ∀ ps : List (Key × Value), (∀ e ∈ ps, ∀ r, refers e.2 r → r.index < m.size) → ∀ r m₁,
      Engine.newPlainObject ps m = .ok r m₁ →
      m₁.LacksFields (n + 1) (some Intrinsic.objectPrototype.ref) → m₁.Redescribes (n + 2) r := by
  refine ⟨fun d hd r m₁ hfrom hlacks => ?_, fun o hlive hproxy hfields hlacks hkept => ?_,
    fun ps hps r m₁ hnew hlacks => ?_⟩
  · have hnew : Engine.newPlainObject d.fields m = .ok r m₁ := hfrom
    have hps (e : Key × Value) (he : e ∈ d.fields) (r : Ref) (hr : refers e.2 r) :
        r.index < m.size := hd r (d.refers_fields he hr)
    obtain ⟨hobject, -, hgrown⟩ := new_newPlainObject hnew
    have hcallable : d.Callable m₁.heap ↔ d.Callable m.heap := by
      refine forall_congr' fun f => forall_congr' fun hf => ?_
      rw [hgrown.onward.callable?_eq hm.layered]
      rintro q ⟨⟩
      exact hd f (.inr (hf.imp (fun hg => ⟨_, hg, f, rfl, rfl⟩) fun hs => ⟨_, hs, f, rfl, rfl⟩))
    have hread := toDescriptor_own (stays_newPlainObject hnew hm hps (n + 1))
      (by rwa [hobject]) (layered_newPlainObject hnew hm)
      fun k w hw q hq => values_newPlainObject hnew hps hw hq
    have hvalues : (m₁.heap.object r).fieldValue? = d.field? := by
      rw [hobject]
      exact d.fieldValue?_describing
    rw [hvalues, Descriptor.describes_field?, hcallable] at hread
    refine hread.imp_left ?_
    rintro ⟨hdescribed, m₂, hok⟩
    rw [Descriptor.ofFields_field? (hcallable.2 hdescribed.2)] at hok
    exact ⟨hdescribed, m₂, hok⟩
  · obtain ⟨hsound, -⟩ := hm.soundKinds
    have honward {m' : Machine} (hseeks : m.Seeks (n + 1) (m.heap.object o).prototype m') :
        m.Onward m' :=
      (Discipline.follows_of_seeks (D := .kinds) trivial (fun _ => trivial) hsound
        (fun q hq => .inl (hm.prototype_live hq)) hseeks).keeps
    refine redescribes_of_stays ⟨hlive, hproxy, hfields, fun m' hseeks =>
      ⟨honward hseeks, hkept m' hseeks⟩⟩ hlacks hm.layered fun k w hw q hq => ?_
    rw [Object.fieldValue?] at hw
    split at hw
    · obtain ⟨d, hd, hw⟩ := Option.bind_eq_some_iff.1 hw
      have hseen : Discipline.kinds.Seen m.size (m.heap.object o) := fun r hr =>
        hsound.2 r (.inl ⟨o, hr⟩)
      have hvalue := (Discipline.seen_descriptor.1 (Discipline.seen_some.1
        (hd ▸ hseen.ownDescriptor k))).1
      exact hm.layered.live_of_knows (hvalue q ⟨w, hw, hq⟩)
    · cases hw
  · obtain ⟨hobject, -, -⟩ := new_newPlainObject hnew
    exact redescribes_of_stays (stays_newPlainObject hnew hm hps (n + 1)) (by rwa [hobject])
      (layered_newPlainObject hnew hm) fun k w hw q hq => values_newPlainObject hnew hps hw hq

/-- A setter with an undefined getter comes back; a getter of a value is refused; and a description
whose `writable` is no boolean is described again with one. -/
theorem descriptions_invert_initially :
    (Session.initialMachine ⟨true, false⟩).Attained ∧
    (∃ m₁ m₂, Engine.fromDescriptor { get := some none, set := some (some ⟨20⟩) }
        (Session.initialMachine ⟨true, false⟩) = .ok ⟨46⟩ m₁ ∧
      (engine 3).toDescriptor (.object ⟨46⟩) m₁ =
        .ok { get := some none, set := some (some ⟨20⟩) } m₂) ∧
    (∃ m₁, Engine.fromDescriptor { value := some .null, get := some none }
        (Session.initialMachine ⟨true, false⟩) = .ok ⟨46⟩ m₁ ∧
      ((engine 3).toDescriptor (.object ⟨46⟩)).Refuses m₁) ∧
    ∃ m₁ d m₂ s m₃, Engine.newPlainObject [("writable", .text "")]
        (Session.initialMachine ⟨true, false⟩) = .ok ⟨46⟩ m₁ ∧
      (engine 3).toDescriptor (.object ⟨46⟩) m₁ = .ok d m₂ ∧
      Engine.fromDescriptor d m₂ = .ok s m₃ ∧
      (m₃.heap.object s).ownDescriptor "writable" = some (.plain (.bool false)) ∧
      (m₃.heap.object s).ownDescriptor "value" = none := by
  have hdecided : (Session.initialMachine ⟨true, false⟩).heap.objects.size = 46 ∧
      (Session.initialMachine ⟨true, false⟩).heap.callable? (.object ⟨20⟩) = some ⟨20⟩ := by
    decide +kernel
  have hm : (Session.initialMachine ⟨true, false⟩).Attained := .initial _
  have hfree := fieldFree_initialMachine ⟨true, false⟩
  -- from here on the realm is not evaluated any more
  generalize Session.initialMachine ⟨true, false⟩ = m at *
  obtain ⟨hsize, hcallable⟩ := hdecided
  have hplace : (⟨m.size⟩ : Ref) = ⟨46⟩ := congrArg Ref.mk hsize
  have hlacks (o : Object) : (m.withHeap (m.heap.allocate o).2).LacksFields 2
      (some Intrinsic.objectPrototype.ref) :=
    ((Machine.Grown.allocate m o).fieldFree hfree).lacksFields (by decide)
  obtain ⟨hdescriptors, -, hobjects⟩ := descriptions_invert hm 1
  refine ⟨hm, ?_, ?_, ?_⟩
  · have hfrom := fromDescriptor_apply { get := some none, set := some (some ⟨20⟩) } m
    have hlive (r : Ref) (hr : refers
        ({ get := some none, set := some (some ⟨20⟩) } : Descriptor) r) : r.index < m.size := by
      rcases hr with ⟨-, ⟨⟩, -⟩ | ⟨-, ⟨⟩, -, ⟨⟩, -⟩ | ⟨-, ⟨⟩, -, ⟨⟩, ⟨⟩⟩
      show 20 < m.heap.objects.size
      omega
    obtain ⟨-, m₂, hread⟩ | ⟨hno, -⟩ := hdescriptors _ hlive _ _ hfrom (hlacks _)
    · exact ⟨_, m₂, hplace ▸ hfrom, hplace ▸ hread⟩
    · refine absurd ⟨rfl, ?_⟩ hno
      rintro f (hf | hf)
      · cases hf
      · cases hf
        exact hcallable
  · have hfrom := fromDescriptor_apply { value := some .null, get := some none } m
    have hlive (r : Ref) (hr : refers
        ({ value := some .null, get := some none } : Descriptor) r) : r.index < m.size := by
      rcases hr with ⟨-, ⟨⟩, ⟨⟩⟩ | ⟨-, ⟨⟩, -, ⟨⟩, -⟩ | ⟨-, ⟨⟩, -⟩
    obtain ⟨⟨hno, -⟩, -⟩ | ⟨-, hrefuses⟩ := hdescriptors _ hlive _ _ hfrom (hlacks _)
    · cases hno
    · exact ⟨_, hplace ▸ hfrom, hplace ▸ hrefuses⟩
  · have hnew := newPlainObject_apply [("writable", .text "")] m
    obtain ⟨hobject, -⟩ := new_newPlainObject hnew
    have hvalues : (Object.plain [("writable", .text "")]).fieldValue? "get" = none ∧
        (Object.plain [("writable", .text "")]).fieldValue? "set" = none ∧
        (Object.plain [("writable", .text "")]).fieldValue? "value" = none ∧
        (Object.plain [("writable", .text "")]).fieldValue? "writable" = some (.text "") := by
      decide +kernel
    obtain ⟨hget, hset, hvalue, hwritable⟩ := hvalues
    have hlive (e : Key × Value) (he : e ∈ [(("writable" : Key), Value.text "")]) (r : Ref)
        (hr : refers e.2 r) : r.index < m.size := by
      rw [List.mem_singleton.1 he] at hr
      cases hr
    obtain ⟨-, d, m₂, s, m₃, hread, hfrom, hown⟩ | ⟨hno, -⟩ := hobjects _ hlive _ _ hnew (hlacks _)
    · rw [hobject] at hown
      refine ⟨_, d, m₂, s, m₃, hplace ▸ hnew, hplace ▸ hread, hfrom, ?_, ?_⟩
      · rw [hown, hwritable]
        rfl
      · rw [hown, hvalue]
        rfl
    · rw [hobject] at hno
      refine absurd ⟨?_, .inl ?_⟩ hno
      · rintro k (rfl | rfl) w hw
        · cases hget.symm.trans hw
        · cases hset.symm.trans hw
      · rw [hget, hset]
        rfl

end ObjectModel
