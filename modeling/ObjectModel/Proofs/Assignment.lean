import ObjectModel.Proofs.Definition
import ObjectModel.Proofs.IterationObject
import ObjectModel.Proofs.Termination

/-!
# What an assignment does

An assignment looks for its key along the prototypes, comes back to the object and defines the
property there, on an array by the rules of arrays.  Where no object of the chain is a proxy or has
the key as an accessor, this comes to one of two ends (`assignment_barred_or_done`).  Either the
assignment is barred (`Heap.Bars`) and nothing changes, or the object has the value as an own
property and nothing else has changed but the length of an array that the new element extends
(`Object.Stored`).
-/

namespace ObjectModel

/-! ## Storing a property -/

/-- The length of an array after it got a property: above every element. -/
def Key.reach (k : Key) (length : Nat) : Nat := k.index?.elim length fun i => max length (i + 1)

namespace Object

/-- The second object is the first with a property described by `e`, and with a length above it if
it is an array. -/
structure Stored (o o' : Object) (k : Key) (e : Descriptor) : Prop where
  own : o'.ownDescriptor k = some e
  others : ∀ k', k' ≠ k → (o.isArray = true → k' ≠ .length) →
    o'.ownDescriptor k' = o.ownDescriptor k'
  length : ∀ size writable, o.kind = .array size writable →
    o'.ownDescriptor .length = some (lengthDescriptor (k.reach size) writable)
  ordered : o.ownKeys.Sublist o'.ownKeys
  prototype : o'.prototype = o.prototype
  extensible : o'.extensible = o.extensible
  isProxy : o'.isProxy = o.isProxy

/-- The length of an array bars an element beyond it: it is read-only, or there are no further
indexes. -/
def Fixes (o : Object) (k : Key) : Prop :=
  ∃ size writable i, o.kind = .array size writable ∧ k = .index i ∧ size ≤ i ∧
    (writable = false ∨ indexLimit ≤ i) ∧ o.ownDescriptor k = none

variable {o o' : Object} {k : Key} {d e : Descriptor}

theorem isProxy_of_kind (h : o'.kind = o.kind) : o'.isProxy = o.isProxy := by
  unfold isProxy
  rw [h]

/-- A property that does not reach beyond the end leaves the length. -/
theorem Redefined.stored (h : o.Redefined o' k e)
    (hreach : ∀ size writable, o.kind = .array size writable → k.reach size = size) :
    o.Stored o' k e where
  own := h.own
  others k' hk' _ := h.others k' hk'
  length size writable hkind := by
    rw [hreach size writable hkind, ownDescriptor_length (h.kind.trans hkind)]
  ordered := h.ordered
  prototype := h.prototype
  extensible := h.extensible
  isProxy := isProxy_of_kind h.kind

/-- An element beyond the end gives the array another length. -/
theorem Redefined.stored_beyond {size i : Nat} {writable : Bool} (h : o.Redefined o' (.index i) e)
    (hkind : o.kind = .array size writable) (hi : size ≤ i) :
    o.Stored (o'.withLength (i + 1) writable) (.index i) e := by
  have hkind' : o'.kind = .array size writable := h.kind.trans hkind
  have harray : o.isArray = true := by simp [isArray, hkind]
  have hown {k : Key} (hk : k ≠ .length) :
      (o'.withLength (i + 1) writable).ownDescriptor k = o'.ownDescriptor k := by
    rw [ownDescriptor_eq fun _ => hk, ownDescriptor_eq fun _ => hk]
    rfl
  refine ⟨?_, fun k' hk' hlength => ?_, fun size' writable' hsize => ?_, ?_, h.prototype,
    h.extensible, ?_⟩
  · rw [hown (Key.length_ne_index i).symm]
    exact h.own
  · rw [hown (hlength harray), h.others k' hk']
  · cases hkind.symm.trans hsize
    have hreach : (Key.index i).reach size = i + 1 := Nat.max_eq_right (Nat.le_succ_of_le hi)
    rw [hreach]
    exact ownDescriptor_length rfl
  · have hkeys : (o'.withLength (i + 1) writable).ownKeys = o'.ownKeys := by
      unfold ownKeys
      rw [hkind']
      rfl
    rw [hkeys]
    exact h.ordered
  · simp [isProxy, hkind, withLength]

/-- An element that is accepted is stored if no length bars it. -/
theorem stored_element {i : Nat} (hregular : o.Regular) (hfree : ¬ o.Fixes (.index i))
    (hdefine : o.define? (.index i) d = some o') (h : o.Redefined o' (.index i) e) :
    ∃ o', o.defineElement? i d = some o' ∧ o.Stored o' (.index i) e := by
  cases hkind : o.kind with
  | array size writable =>
    by_cases hi : size ≤ i
    · -- an element that is there would stand below the length
      have habsent : o.ownDescriptor (.index i) = none := by
        rw [ownDescriptor_eq fun _ => (Key.length_ne_index i).symm]
        cases hfind : o.properties.find? (.index i) with
        | none => rfl
        | some p => exact absurd ((hregular size writable hkind).2.1 i p hfind) (Nat.not_lt.2 hi)
      have hwritable : writable = true ∧ i < indexLimit := by
        by_contra hbarred
        refine hfree ⟨size, writable, i, hkind, rfl, hi, ?_, habsent⟩
        rwa [not_and_or, Bool.not_eq_true, Nat.not_lt] at hbarred
      refine ⟨_, ?_, h.stored_beyond hkind hi⟩
      simp [defineElement?, hkind, hwritable, hi, hdefine]
    · refine ⟨o', ?_, h.stored fun size' writable' hsize => ?_⟩
      · simp [defineElement?, hkind, hi, hdefine]
      · cases hkind.symm.trans hsize
        exact Nat.max_eq_left (Nat.not_le.1 hi)
  | _ =>
    refine ⟨o', ?_, h.stored fun size writable hsize => ?_⟩
    · simp [defineElement?, hkind, hdefine]
    · cases hkind.symm.trans hsize

/-- **A property other than an array's length is stored if its definition is accepted and no length
bars it.** -/
theorem stored_of_accepts (hregular : o.Regular) (hk : o.isArray = true → k ≠ .length)
    (hd : d.isConsistent = true) (haccepts : o.Accepts k d) (hfree : ¬ o.Fixes k) :
    ∃ o', o.defineStored? k d = some o' ∧ o.Stored o' k (d.applied (o.ownDescriptor k)) := by
  obtain ⟨o', hdefine, hredefined⟩ := haccepts.define? hk hd
  cases k with
  | index i => exact stored_element hregular hfree hdefine hredefined
  | _ => exact ⟨o', hdefine, hredefined.stored fun _ _ _ => rfl⟩

/-- A new property is refused where the object takes none or a length bars it. -/
theorem defineStored?_eq_none (hk : o.isArray = true → k ≠ .length) (hd : d.isConsistent = true)
    (h : ¬ o.Accepts k d ∨ o.Fixes k) : o.defineStored? k d = none := by
  have hrefused (haccepts : ¬ o.Accepts k d) : o.define? k d = none :=
    Option.eq_none_iff_forall_ne_some.2 fun o' ho' => haccepts (accepts_of_define? hk hd ho')
  rcases h with haccepts | ⟨size, writable, i, hkind, rfl, hi, hbarred, -⟩
  · cases k with
    | index i =>
      have hnone := hrefused haccepts
      show o.defineElement? i d = none
      unfold defineElement?
      split
      · split
        · rfl
        · rw [hnone]
          rfl
      · exact hnone
    | _ => exact hrefused haccepts
  · simp [defineStored?, defineElement?, hkind, hi, hbarred]

end Object

/-! ## Assigning along a chain -/

/-- An assignment to an object with these prototypes is barred: the first property is read-only, the
object takes no new one, or its length bars a new element. -/
def Heap.Bars (h : Heap) (o : Ref) (l : List Ref) (k : Key) : Prop :=
  (∃ d, h.firstOwn k l = some d ∧ d.writable = some false) ∨
    ((h.object o).ownDescriptor k = none ∧ (h.object o).extensible = false) ∨
    (h.object o).Fixes k

namespace Descriptor

/-- What a property is after a value was assigned to it. -/
def assigned (v : Value) (current : Option Descriptor) : Descriptor :=
  current.elim (.plain v) fun d => { d with value := some v }

/-- What is defined to assign a value. -/
def assignment (v : Value) (current : Option Descriptor) : Descriptor :=
  current.elim (.plain v) fun _ => { value := some v }

variable {d : Descriptor} (v : Value) (current : Option Descriptor)

theorem isConsistent_assignment : (assignment v current).isConsistent = true := by
  cases current <;> rfl

theorem value_assigned : (assigned v current).value = some v := by
  cases current <;> rfl

variable {current} (hcurrent : ∀ d, current = some d → d.isAccessor = false)

include hcurrent

theorem isAccessor_assigned : (assigned v current).isAccessor = false := by
  cases current with
  | none => rfl
  | some d => exact hcurrent d rfl

theorem applied_assignment : (assignment v current).applied current = assigned v current := by
  cases current with
  | none => rfl
  | some d =>
    have hsame : (assignment v (some d)).isAccessor = d.isAccessor := (hcurrent d rfl).symm
    rw [applied_same (.inr hsame)]
    simp [assignment, assigned, overlay]

end Descriptor

/-- A value can be assigned to a property that is not read-only, and to a new one of an object that
takes it. -/
theorem Object.accepts_assignment {o : Object} {k : Key} (v : Value)
    (hdata : ∀ d, o.ownDescriptor k = some d → d.isAccessor = false)
    (hwritable : ∀ d, o.ownDescriptor k = some d → d.writable ≠ some false) :
    o.Accepts k (.assignment v (o.ownDescriptor k)) ↔
      (o.ownDescriptor k = none → o.extensible = true) := by
  have happlied := Descriptor.applied_assignment v hdata
  unfold Accepts
  cases hown : o.ownDescriptor k with
  | none => simp
  | some d =>
    rw [hown] at hdata hwritable happlied
    rcases value_of_ownDescriptor hown with ⟨w, writable, hw, -, -⟩ | ⟨-, -, haccessor⟩
    · have hcomplete := (ownDescriptor_complete hown).1
      rw [Descriptor.complete_of_plain (hdata d rfl)] at hcomplete
      have hconfigurable : d.configurable = some (d.configurable.getD false) :=
        (congrArg Descriptor.configurable hcomplete).symm
      simp only [happlied, reduceCtorEq, false_implies, iff_true]
      cases hfixed : d.configurable.getD false with
      | true => exact .inl (hconfigurable.trans (congrArg some hfixed))
      | false =>
        refine .inr ⟨hconfigurable.trans (congrArg some hfixed), rfl, ?_, rfl, rfl, fun hread => ?_⟩
        · simp [Descriptor.isData, Descriptor.assigned, hw]
        · exact absurd hread (hwritable d rfl)
    · exact absurd (hdata d rfl) (by simp [haccessor])

section Assigning

variable {n : Nat} {m : Machine} {o : Ref} {k : Key} {v : Value}

/-- The receiver gets the value by a definition. -/
theorem engine_setOnReceiver (ho : (m.heap.object o).isProxy = false)
    (hk : (m.heap.object o).isArray = true → k ≠ .length)
    (hdata : ∀ d, (m.heap.object o).ownDescriptor k = some d → d.isAccessor = false)
    (hwritable : ∀ d, (m.heap.object o).ownDescriptor k = some d → d.writable ≠ some false) :
    (engine (n + 1)).setOnReceiver (.object o) k v m =
      Engine.reviseObject o
        (fun a => a.defineStored? k (.assignment v ((m.heap.object o).ownDescriptor k))) m := by
  simp only [Engine.setOnReceiver]
  rw [Run.bind_ok (engine_getOwnProperty ho)]
  cases hown : (m.heap.object o).ownDescriptor k with
  | none => exact engine_define_stored ho hk _
  | some d =>
    have hfree : ¬ (d.isAccessor || d.writable == some false) = true := by
      simp [hdata d hown, hwritable d hown]
    simp only [hfree]
    exact engine_define_stored ho hk _

/-- The receiver refuses the value: it takes no new property, or its length bars a new element. -/
theorem engine_setOnReceiver_refused (ho : (m.heap.object o).isProxy = false)
    (hk : (m.heap.object o).isArray = true → k ≠ .length)
    (hdata : ∀ d, (m.heap.object o).ownDescriptor k = some d → d.isAccessor = false)
    (hwritable : ∀ d, (m.heap.object o).ownDescriptor k = some d → d.writable ≠ some false)
    (h : ((m.heap.object o).ownDescriptor k = none ∧ (m.heap.object o).extensible = false) ∨
      (m.heap.object o).Fixes k) :
    (engine (n + 1)).setOnReceiver (.object o) k v m = .ok false m := by
  rw [engine_setOnReceiver ho hk hdata hwritable, Engine.reviseObject_apply,
    Object.defineStored?_eq_none hk (Descriptor.isConsistent_assignment _ _)]
  rcases h with ⟨habsent, hclosed⟩ | hfixes
  · refine .inl fun haccepts => ?_
    have hextensible := (Object.accepts_assignment v hdata hwritable).1 haccepts habsent
    rw [hclosed] at hextensible
    cases hextensible
  · exact .inr hfixes

/-- The receiver stores the value. -/
theorem engine_setOnReceiver_stored (ho : (m.heap.object o).isProxy = false)
    (hregular : (m.heap.object o).Regular) (hk : (m.heap.object o).isArray = true → k ≠ .length)
    (hdata : ∀ d, (m.heap.object o).ownDescriptor k = some d → d.isAccessor = false)
    (hwritable : ∀ d, (m.heap.object o).ownDescriptor k = some d → d.writable ≠ some false)
    (hopen : (m.heap.object o).ownDescriptor k = none → (m.heap.object o).extensible = true)
    (hfree : ¬ (m.heap.object o).Fixes k) :
    ∃ o', (engine (n + 1)).setOnReceiver (.object o) k v m = .ok true (m.replace o o') ∧
      (m.heap.object o).Stored o' k (.assigned v ((m.heap.object o).ownDescriptor k)) := by
  obtain ⟨o', hdefine, hstored⟩ := Object.stored_of_accepts hregular hk
    (Descriptor.isConsistent_assignment v _)
    ((Object.accepts_assignment v hdata hwritable).2 hopen) hfree
  rw [Descriptor.applied_assignment v hdata] at hstored
  refine ⟨o', ?_, hstored⟩
  rw [engine_setOnReceiver ho hk hdata hwritable, Engine.reviseObject_apply, hdefine]
  rfl

end Assigning

/-- **An assignment is barred or done.**  An object with a chain of prototypes, none of which is a
proxy or has the key as an accessor, refuses a value exactly if the assignment is barred, and then
nothing changes.  Otherwise the value is in a data property of the object, where it is found; the
other properties and all other objects stay, an array's length apart, which goes up to a new
element. -/
theorem assignment_barred_or_done {m : Machine} (hm : m.Attained) {o : Ref} {l : List Ref}
    (hl : m.heap.Chain (some o) l) {k : Key} (hk : (m.heap.object o).isArray = true → k ≠ .length)
    (hdata : ∀ r ∈ l, ∀ d, (m.heap.object r).ownDescriptor k = some d → d.isAccessor = false)
    (v : Value) {n : Nat} (hn : l.length < n) :
    (m.heap.Bars o l k ∧ (engine n).setFor o k v (.object o) m = .ok false m) ∨
    ¬ m.heap.Bars o l k ∧ ∃ o' d,
      (engine n).setFor o k v (.object o) m = .ok true (m.replace o o') ∧
      (m.heap.object o).Stored o' k d ∧
      d = .assigned v ((m.heap.object o).ownDescriptor k) ∧ d.isAccessor = false ∧
      (engine n).get o k (m.replace o o') = .ok v (m.replace o o') := by
  obtain ⟨rest, rfl⟩ : ∃ rest, l = o :: rest := by
    cases hl
    exact ⟨_, rfl⟩
  obtain ⟨-, hlive, hproxy, -⟩ := Heap.Chain.cons_iff.1 hl
  have hown := hdata o List.mem_cons_self
  have hfirst (d) (hd : m.heap.firstOwn k (o :: rest) = some d) : d.isAccessor = false := by
    obtain ⟨r, hr, hd⟩ := Heap.ownDescriptor_of_firstOwn hd
    exact hdata r hr d hd
  obtain ⟨n', hn', hrun⟩ := hosted_setFor (fun _ => none) hl hn hfirst v (.object o)
  obtain ⟨n', rfl⟩ : ∃ n'', n' = n'' + 1 := ⟨n' - 1, by omega⟩
  rw [hostedEngine_none, hostedEngine_none] at hrun
  have hany : (m.heap.firstOwn k (o :: rest)).any (fun d => d.writable == some false) = true ↔
      ∃ d, m.heap.firstOwn k (o :: rest) = some d ∧ d.writable = some false := by
    simp [Option.any_eq_true]
  by_cases hread : ∃ d, m.heap.firstOwn k (o :: rest) = some d ∧ d.writable = some false
  · exact .inl ⟨.inl hread, hrun.trans (if_pos (hany.2 hread))⟩
  rw [if_neg (mt hany.1 hread)] at hrun
  -- an own property is the first one
  have hwritable (d) (hd : (m.heap.object o).ownDescriptor k = some d) :
      d.writable ≠ some false := by
    intro hfixed
    refine hread ⟨d, ?_, hfixed⟩
    rw [Heap.firstOwn, List.findSome?_cons, hd]
  by_cases hbars : m.heap.Bars o (o :: rest) k
  · refine .inl ⟨hbars, hrun.trans ?_⟩
    exact engine_setOnReceiver_refused hproxy hk hown hwritable (hbars.resolve_left hread)
  · have hopen : (m.heap.object o).ownDescriptor k = none → (m.heap.object o).extensible = true := by
      intro habsent
      cases hextensible : (m.heap.object o).extensible with
      | true => rfl
      | false => exact absurd (.inr (.inl ⟨habsent, hextensible⟩)) hbars
    obtain ⟨o', hset, hstored⟩ := engine_setOnReceiver_stored (n := n') (v := v) hproxy
      (hm.regular.objects o) hk hown hwritable hopen fun hfixes => hbars (.inr (.inr hfixes))
    have hobject : (m.replace o o').heap.object o = o' := by
      rw [Machine.object_replace hlive, if_pos rfl]
    refine .inr ⟨hbars, o', _, hrun.trans hset, hstored, rfl,
      Descriptor.isAccessor_assigned v hown, ?_⟩
    obtain ⟨n, rfl⟩ : ∃ n', n = n' + 2 := ⟨n - 2, by rw [List.length_cons] at hn; omega⟩
    refine engine_getFor_data ?_ (hobject ▸ hstored.own) (Descriptor.value_assigned v _)
    rw [hobject, hstored.isProxy, hproxy]

/-- An array of length 3 takes a sixth element and has length 6 then; if its length is read-only, it
refuses that element. -/
theorem assignment_beyond_end :
    (Machine.fixedElement.Attained ∧
      Machine.fixedElement.heap.Chain (some ⟨46⟩)
        [⟨46⟩, Intrinsic.arrayPrototype.ref, Intrinsic.objectPrototype.ref] ∧
      ∃ o', (engine 4).setFor ⟨46⟩ (.index 5) .null (.object ⟨46⟩) Machine.fixedElement =
          .ok true (Machine.fixedElement.replace ⟨46⟩ o') ∧
        o'.ownDescriptor (.index 5) = some (.plain .null) ∧
        o'.ownDescriptor .length = some (Object.lengthDescriptor 6 true)) ∧
    Machine.fixedLength.Attained ∧
      Machine.fixedLength.heap.Chain (some ⟨46⟩)
        [⟨46⟩, Intrinsic.arrayPrototype.ref, Intrinsic.objectPrototype.ref] ∧
      (engine 4).setFor ⟨46⟩ (.index 5) .null (.object ⟨46⟩) Machine.fixedLength =
        .ok false Machine.fixedLength := by
  have hchain : Machine.fixedElement.heap.Chain (some ⟨46⟩)
      [⟨46⟩, Intrinsic.arrayPrototype.ref, Intrinsic.objectPrototype.ref] := by decide +kernel
  have hchain' : Machine.fixedLength.heap.Chain (some ⟨46⟩)
      [⟨46⟩, Intrinsic.arrayPrototype.ref, Intrinsic.objectPrototype.ref] := by decide +kernel
  have hkind : (Machine.fixedElement.heap.kind ⟨46⟩).length? = some (3, true) := by decide +kernel
  have hkind' : (Machine.fixedLength.heap.kind ⟨46⟩).length? = some (3, false) := by decide +kernel
  have hopen : (Machine.fixedElement.heap.object ⟨46⟩).extensible = true := by decide +kernel
  have habsent : ∀ r ∈ ([⟨46⟩, Intrinsic.arrayPrototype.ref, Intrinsic.objectPrototype.ref] :
      List Ref), (Machine.fixedElement.heap.object r).ownDescriptor (.index 5) = none := by
    decide +kernel
  have habsent' : ∀ r ∈ ([⟨46⟩, Intrinsic.arrayPrototype.ref, Intrinsic.objectPrototype.ref] :
      List Ref), (Machine.fixedLength.heap.object r).ownDescriptor (.index 5) = none := by
    decide +kernel
  have hm := Machine.attained_fixedElement
  have hm' := Machine.attained_fixedLength
  -- from here on the machines are not evaluated any more
  generalize Machine.fixedLength = m' at *
  generalize Machine.fixedElement = m at *
  have hown := habsent ⟨46⟩ List.mem_cons_self
  have hown' := habsent' ⟨46⟩ List.mem_cons_self
  have hkind : (m.heap.object ⟨46⟩).kind = .array 3 true := Kind.eq_of_length? hkind
  have hkind' : (m'.heap.object ⟨46⟩).kind = .array 3 false := Kind.eq_of_length? hkind'
  refine ⟨⟨hm, hchain, ?_⟩, hm', hchain', ?_⟩
  · rcases assignment_barred_or_done hm hchain (fun _ => (Key.length_ne_index 5).symm)
      (fun r hr d hd => by rw [habsent r hr] at hd; cases hd) .null (n := 4) (by decide) with
      ⟨hbars, -⟩ | ⟨-, o', d, hset, hstored, rfl, -, -⟩
    · rcases hbars with ⟨d, hd, -⟩ | ⟨-, hclosed⟩ | ⟨size, writable, i, hfixed, hi, -, hbarred, -⟩
      · obtain ⟨r, hr, hd⟩ := Heap.ownDescriptor_of_firstOwn hd
        rw [habsent r hr] at hd
        cases hd
      · rw [hopen] at hclosed
        cases hclosed
      · cases hkind.symm.trans hfixed
        cases hi
        exact absurd hbarred (by decide)
    · refine ⟨o', hset, ?_, hstored.length 3 true hkind⟩
      rw [hstored.own, hown]
      rfl
  · rcases assignment_barred_or_done hm' hchain' (fun _ => (Key.length_ne_index 5).symm)
      (fun r hr d hd => by rw [habsent' r hr] at hd; cases hd) .null (n := 4) (by decide) with
      ⟨-, hset⟩ | ⟨hfree, -⟩
    · exact hset
    · exact absurd (.inr (.inr ⟨3, false, 5, hkind', rfl, by decide, .inl rfl, hown'⟩)) hfree

end ObjectModel
