import ObjectModel.Proofs.Seen

/-!
# Basic routines

The runs that read the machine, make objects and throw, and the conversions of values, as routines
of every discipline.
-/

namespace ObjectModel

/-! ## Regular objects -/

/-- The length of an array is a word. -/
def Kind.Bounded : Kind → Prop
  | .array length _ => length ≤ Number.maxWord
  | _ => True

namespace Object

theorem regular_of_not_isArray {o : Object} (h : o.isArray = false) : o.Regular := by
  intro length writable hk
  simp [isArray, hk] at h

theorem regular_new (proto : Option Ref) {kind : Kind} (hkind : kind.Bounded) :
    (Object.new proto kind).Regular := by
  have hnone (k : Key) : (Object.new proto kind).properties.find? k = none := Slots.find?_empty k
  intro length writable harray
  have harray : kind = .array length writable := harray
  subst harray
  refine ⟨hnone _, fun i p hp => ?_, hkind⟩
  rw [hnone] at hp
  cases hp

end Object

theorem Key.length_ne_index (i : Nat) : Key.length ≠ .index i := by
  have h : Key.length = .name "length" := by decide
  rw [h]
  nofun

theorem Heap.eq_of_callable? {h : Heap} {v : Value} {r : Ref} (hv : h.callable? v = some r) :
    v = .object r := by
  cases v with
  | object r' =>
    simp only [Heap.callable?] at hv
    split at hv
    · cases hv
      rfl
    · cases hv
  | _ => cases hv

/-- A machine with one more object, which is known and exists, follows the machine before it. -/
theorem Discipline.Follows.allocate {D : Discipline} {m : Machine} {o : Object} (hm : D.Sound m)
    (ho : D.Seen m.size o) (hr : o.Regular)
    (hhidden : ∀ r, o.kind.hidden? = some r → r.index < m.size) :
    D.Follows m (m.withHeap (m.heap.allocate o).2) ∧
      D.Seen (m.withHeap (m.heap.allocate o).2).size (m.heap.allocate o).1 ∧
        (m.heap.allocate o).1.index < (m.withHeap (m.heap.allocate o).2).size := by
  have hsize : (m.withHeap (m.heap.allocate o).2).size = m.size + 1 := Heap.size_allocate ..
  refine ⟨⟨D.keeps_change (.allocate o ho hr hhidden), hm.allocate ho, ?_⟩, ?_, ?_⟩
  · omega
  · rw [hsize]
    exact seen_ref.2 (D.knows_fresh _ hm.1)
  · rw [hsize]
    exact Nat.lt_succ_self _

namespace Routine

open Discipline

variable {D : Discipline} {b : Nat} {α β : Type} {Q : Nat → α → Prop}

/-- Nothing is said about the result. -/
abbrev Any : Nat → α → Prop := fun _ _ => True

/-! ## Putting routines together -/

protected theorem pure {a : α} (h : ∀ b', b ≤ b' → Q b' a) : Routine D b Q fun _ => pure a :=
  .act _ fun _ hb hm => ⟨.refl hm, h _ hb⟩

/-- The routine gives data that it has seen. -/
theorem give [HasRefs α] {a : α} (h : D.Seen b a) : Routine D b D.Seen fun _ => pure a :=
  .pure fun _ hb => h.mono hb

theorem done (a : α) : Routine D b Any fun _ => pure a := .pure fun _ _ => trivial

protected theorem map {R : Nat → β → Prop} {x : Engine → Run α} {f : α → β}
    (hx : Routine D b Q x) (h : ∀ b' a, b ≤ b' → Q b' a → ∀ b'', b' ≤ b'' → R b'' (f a)) :
    Routine D b R fun eng => x eng >>= fun a => pure (f a) :=
  .bind hx fun b' a hb ha => .pure (h b' a hb ha)

/-- What a routine gives, in a form without places. -/
theorem mapAny {x : Engine → Run α} (hx : Routine D b Q x) (f : α → β) :
    Routine D b Any fun eng => x eng >>= fun a => pure (f a) :=
  .map hx fun _ _ _ _ _ _ => trivial

protected theorem ite {c : Prop} [Decidable c] {x y : Engine → Run α}
    (hx : c → Routine D b Q x) (hy : ¬ c → Routine D b Q y) :
    Routine D b Q fun eng => if c then x eng else y eng := by
  by_cases hc : c
  · simpa only [hc, if_true] using hx hc
  · simpa only [hc, if_false] using hy hc

/-! ## Single runs -/

theorem read (f : Machine → α) (h : ∀ m, b ≤ m.size → D.Sound m → Q m.size (f m)) :
    Routine D b Q fun _ m => .ok (f m) m :=
  .act _ fun m hb hm => ⟨.refl hm, h m hb hm⟩

theorem machine : Routine D b D.Seen fun _ => Run.machine :=
  .read (fun m => m) fun _ _ hm => hm.2

theorem heap : Routine D b D.Seen fun _ => Run.heap :=
  .read (fun m => m.heap) fun _ _ hm => hm.heap

theorem object (r : Ref) : Routine D b D.Seen fun _ => Run.object r :=
  .read (fun m => m.heap.object r) fun _ _ hm => hm.object r

theorem kind (r : Ref) : Routine D b D.Seen fun _ => Run.kind r :=
  .read (fun m => m.heap.kind r) fun _ _ hm => hm.heap.kindAt r

theorem callable? {v : Value} (hv : D.Seen b v) : Routine D b D.Seen fun _ => Run.callable? v := by
  refine .read (fun m => m.heap.callable? v) fun m hb _ => ?_
  cases hc : m.heap.callable? v with
  | none => exact seen_none
  | some r =>
    rw [Heap.eq_of_callable? hc] at hv
    exact seen_some.2 (seen_ref.2 (seen_object.1 (hv.mono hb)))

theorem throwValue {v : Value} (hv : D.Seen b v) : Routine D b Q fun _ => Run.throwValue v :=
  .act _ fun _ hb hm => ⟨.refl hm, hv.mono hb⟩

theorem outOfFuel : Routine D b Q fun _ => Run.outOfFuel := .act _ fun _ _ hm => .refl hm

/-- A change of what no discipline looks at. -/
theorem beside {f : Machine → Machine} (hheap : ∀ m, (f m).heap = m.heap)
    (hoptions : ∀ m, (f m).options = m.options)
    (hextensions : ∀ m, (f m).extensions = m.extensions)
    (hsource : ∀ m, (f m).source = m.source)
    (hsound : ∀ m, b ≤ m.size → D.Sound m → D.Sound (f m)) :
    Routine D b Any fun _ => Run.change f :=
  .act _ fun m hb hm =>
    ⟨⟨D.keeps_change (.beside (hheap m) (hoptions m) (hextensions m) (hsource m)),
      hsound m hb hm, Nat.le_of_eq (congrArg (fun h => h.objects.size) (hheap m).symm)⟩, trivial⟩

theorem emit (e : Event) : Routine D b Any fun _ => Run.emit e :=
  .beside (fun _ => rfl) (fun _ => rfl) (fun _ => rfl) (fun _ => rfl) fun _ _ hm => hm

theorem allocate {o : Object} (ho : D.Seen b o) (hr : o.Regular)
    (hhidden : ∀ r, o.kind.hidden? = some r → r.index < b) :
    Routine D b D.Seen fun _ => Run.allocate o :=
  .act _ fun _ hb hm =>
    have h := Follows.allocate hm (ho.mono hb) hr fun r h => Nat.lt_of_lt_of_le (hhidden r h) hb
    ⟨h.1, h.2.1⟩

/-- A new object exists afterwards. -/
theorem allocateLive {o : Object} (ho : D.Seen b o) (hr : o.Regular)
    (hhidden : ∀ r, o.kind.hidden? = some r → r.index < b) :
    Routine D b (fun b' r => D.Seen b' r ∧ r.index < b') fun _ => Run.allocate o :=
  .act _ fun _ hb hm =>
    Follows.allocate hm (ho.mono hb) hr fun r h => Nat.lt_of_lt_of_le (hhidden r h) hb

theorem newError (kind : ErrorKind) (message : Text) :
    Routine D b D.Seen fun _ => Run.newError kind message := by
  have hnew : D.Seen b (Object.new (some (Intrinsic.ofErrorKind kind).ref) .error) :=
    seen_new.2 ⟨seen_some.2 seen_intrinsic, nofun⟩
  have htable : D.Seen b (PropertyTable.empty.insert "message" (.hidden (.text message))) :=
    Seen.insert seen_empty seen_key (seen_hidden.2 seen_text)
  exact .allocate (hnew.withProperties htable) (Object.regular_of_not_isArray rfl) nofun

theorem fail (fault : Fault) : Routine D b Q fun _ => Run.fail fault :=
  .bind (.emit _) fun _ _ _ _ => .bind (.newError ..) fun _ _ _ he =>
    .throwValue (seen_object.2 (seen_ref.1 he))

/-! ## Questions to the engine -/

section Methods

variable {o f p : Ref} {k : Key} {v receiver : Value} {arguments : List Value}

theorem getOwnProperty (ho : D.Seen b o) :
    Routine D b D.Seen fun eng => eng.getOwnProperty o k :=
  .answer (.getOwnProperty o k) ho

theorem defineOwnProperty {d : Descriptor} (ho : D.Seen b o) (hd : D.Seen b d) :
    Routine D b Any fun eng => eng.defineOwnProperty o k d :=
  .answer (.defineOwnProperty o k d) fun r hr => hr.elim (ho r) (hd r)

theorem hasProperty (ho : D.Seen b o) : Routine D b Any fun eng => eng.hasProperty o k :=
  .answer (.hasProperty o k) ho

theorem getFor (ho : D.Seen b o) (hr : D.Seen b receiver) :
    Routine D b D.Seen fun eng => eng.getFor o k receiver :=
  .answer (.get o k receiver) fun r h => h.elim (ho r) (hr r)

theorem setFor (ho : D.Seen b o) (hv : D.Seen b v) (hr : D.Seen b receiver) :
    Routine D b Any fun eng => eng.setFor o k v receiver :=
  .answer (.set o k v receiver) fun r h => h.elim (ho r) fun h => h.elim (hv r) (hr r)

theorem deleteProperty (ho : D.Seen b o) : Routine D b Any fun eng => eng.deleteProperty o k :=
  .answer (.delete o k) ho

theorem ownKeys (ho : D.Seen b o) : Routine D b Any fun eng => eng.ownKeys o :=
  .answer (.ownKeys o) ho

theorem setPrototypeOf {p : Option Ref} (ho : D.Seen b o) (hp : D.Seen b p) :
    Routine D b Any fun eng => eng.setPrototypeOf o p :=
  .answer (.setPrototypeOf o p) fun r h => h.elim (ho r) (hp r)

theorem callRaw (hr : D.Seen b receiver) (ha : D.Seen b arguments) :
    Routine D b D.Seen fun eng => eng.callRaw f receiver arguments :=
  .answer (.call f receiver arguments) fun r h => h.elim (hr r) (ha r)

theorem constructRaw (ha : D.Seen b arguments) (hp : D.Seen b p) :
    Routine D b D.Seen fun eng => eng.constructRaw f arguments p :=
  .answer (.construct f arguments p) fun r h => h.elim (ha r) (hp r)

theorem call (hv : D.Seen b v) (hr : D.Seen b receiver) (ha : D.Seen b arguments) :
    Routine D b D.Seen fun eng => eng.call v receiver arguments := by
  refine .bind (.callable? hv) fun b₁ f h₁ hf => ?_
  cases f with
  | none => exact .fail _
  | some f => exact .callRaw (hr.mono h₁) (ha.mono h₁)

theorem construct {newTarget : Option Ref} (hf : D.Seen b f) (ha : D.Seen b arguments)
    (hn : D.Seen b newTarget) :
    Routine D b D.Seen fun eng => eng.construct f arguments newTarget := by
  refine .bind .heap fun b₁ h h₁ _ => .ite (fun _ => ?_) fun _ => .fail _
  exact .constructRaw (ha.mono h₁) ((hn.getD' hf).mono h₁)

theorem get (ho : D.Seen b o) : Routine D b D.Seen fun eng => eng.get o k :=
  .getFor ho (seen_object.2 (seen_ref.1 ho))

end Methods

/-! ## Objects from values -/

theorem newObject {proto : Option Ref} (hp : D.Seen b proto) :
    Routine D b D.Seen fun _ => Engine.newObject proto :=
  .allocate (seen_new.2 ⟨hp, nofun⟩) (Object.regular_new _ trivial) nofun

theorem newObjectLive {proto : Option Ref} (hp : D.Seen b proto) :
    Routine D b (fun b' r => D.Seen b' r ∧ r.index < b') fun _ => Engine.newObject proto :=
  .allocateLive (seen_new.2 ⟨hp, nofun⟩) (Object.regular_new _ trivial) nofun

theorem newOfClass (proto : Intrinsic) {kind : Kind} (hk : D.Seen b kind)
    (hbounded : kind.Bounded) (hhidden : ∀ r, kind.hidden? = some r → r.index < b) :
    Routine D b D.Seen fun _ => Engine.newOfClass proto kind :=
  .allocate (seen_new.2 ⟨seen_some.2 seen_intrinsic, hk⟩) (Object.regular_new _ hbounded) hhidden

theorem newWrapper (p : Primitive) : Routine D b D.Seen fun _ => Engine.newWrapper p :=
  .newOfClass _ nofun trivial nofun

theorem newIterator {source : IterationSource} (hs : D.Seen b source) :
    Routine D b D.Seen fun _ => Engine.newIterator source :=
  .newOfClass _ hs trivial nofun

section Functions

variable {proto : Option Ref} {f : FunctionData} (hp : D.Seen b proto) (hf : D.Seen b f)
  (name : Text) (length : Nat)

include hp hf

theorem seen_newFunction : D.Seen b
    { Object.new (some (proto.getD Intrinsic.functionPrototype.ref)) (.function f) with
      properties :=
        (PropertyTable.empty.insert .length (.data (.ofNat length) false false true)).insert
          "name" (.data (.text name) false false true) } := by
  have hnew : D.Seen b
      (Object.new (some (proto.getD Intrinsic.functionPrototype.ref)) (.function f)) :=
    seen_new.2 ⟨seen_some.2 (hp.getD' seen_intrinsic), hf⟩
  refine hnew.withProperties ?_
  exact Seen.insert (Seen.insert seen_empty seen_key seen_ofNat) seen_key seen_text

theorem newFunction : Routine D b D.Seen fun _ => Engine.newFunction proto name length f :=
  .allocate (seen_newFunction hp hf name length) (Object.regular_of_not_isArray rfl) nofun

theorem newFunctionLive : Routine D b (fun b' r => D.Seen b' r ∧ r.index < b') fun _ =>
    Engine.newFunction proto name length f :=
  .allocateLive (seen_newFunction hp hf name length) (Object.regular_of_not_isArray rfl) nofun

end Functions

theorem toObject {v : Value} (hv : D.Seen b v) : Routine D b D.Seen fun _ => Engine.toObject v := by
  cases v with
  | object r => exact .give (seen_ref.2 (seen_object.1 hv))
  | undefined => exact .fail _
  | null => exact .fail _
  | bool x => exact .newWrapper _
  | number n => exact .newWrapper _
  | text t => exact .newWrapper _
  | symbol s => exact .newWrapper _

/-! ## Conversions -/

section Conversions

variable {o : Ref} {v : Value}

theorem firstPrimitive (ho : D.Seen b o) (ks : List Key) :
    Routine D b D.Seen fun eng => eng.firstPrimitive o ks := by
  induction ks generalizing b with
  | nil => exact .fail _
  | cons k rest ih =>
    simp only [Engine.firstPrimitive]
    refine .bind (.get ho) fun b₁ method h₁ hmethod => ?_
    refine .bind (.callable? hmethod) fun b₂ f h₂ hf => ?_
    have ho₂ := (ho.mono h₁).mono h₂
    cases f with
    | none => exact ih ho₂
    | some f =>
      have hthis : D.Seen b₂ (Value.object o) := seen_object.2 (seen_ref.1 ho₂)
      refine .bind (.call (seen_object.2 (seen_ref.1 (seen_some.1 hf))) hthis seen_nil)
        fun b₃ v h₃ hv => ?_
      cases v with
      | object r => exact ih (ho₂.mono h₃)
      | _ => exact .give hv

theorem toPrimitive (hv : D.Seen b v) (hint : Hint) :
    Routine D b D.Seen fun eng => eng.toPrimitive v hint := by
  cases v with
  | object o =>
    have ho : D.Seen b o := seen_ref.2 (seen_object.1 hv)
    cases hint with
    | text => exact .firstPrimitive ho _
    | number => exact .firstPrimitive ho _
  | _ => exact .give hv

theorem primitiveToNumber (v : Value) :
    Routine D b Any fun _ => Engine.primitiveToNumber v := by
  cases v with
  | symbol s => exact .fail _
  | _ => exact .done _

theorem toNumber (hv : D.Seen b v) : Routine D b Any fun eng => eng.toNumber v :=
  .bind (.toPrimitive hv _) fun _ v _ _ => .primitiveToNumber v

theorem primitiveToText (v : Value) : Routine D b Any fun _ => Engine.primitiveToText v := by
  cases v with
  | symbol s => exact .fail _
  | _ => exact .done _

theorem toText (hv : D.Seen b v) : Routine D b Any fun eng => eng.toText v :=
  .bind (.toPrimitive hv _) fun _ v _ _ => .primitiveToText v

theorem toPropertyKey (hv : D.Seen b v) : Routine D b Any fun eng => eng.toPropertyKey v := by
  refine .bind (.toPrimitive hv _) fun b₁ v _ _ => ?_
  cases v with
  | symbol s => exact .done _
  | _ => exact .mapAny (.primitiveToText _) _

theorem toIntegerOrInfinity (hv : D.Seen b v) :
    Routine D b Any fun eng => eng.toIntegerOrInfinity v :=
  .mapAny (.toNumber hv) _

theorem toWord (hv : D.Seen b v) : Routine D b Any fun eng => eng.toWord v :=
  .mapAny (.toNumber hv) _

theorem toLength (hv : D.Seen b v) : Routine D b Any fun eng => eng.toLength v :=
  .mapAny (.toIntegerOrInfinity hv) _

end Conversions

end Routine

end ObjectModel
