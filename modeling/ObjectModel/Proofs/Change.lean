import ObjectModel.Engine.Ordinary
import ObjectModel.Engine.Realm
import ObjectModel.Proofs.Refers

/-!
# What can happen to the heap

Whatever a run does to the heap it does in single changes: an object is added, an object is
revised by the rules for its kind, a prototype is relinked after the check for cycles, the
extensions are installed.  `Machine.Change` lists them, and `Object.Revision` the revisions of one
object.  Nothing else ever writes to the heap, so what every change keeps every run keeps.
-/

namespace ObjectModel

/-! ## Places -/

theorem Intrinsic.index_ref_lt (i : Intrinsic) : i.ref.index < Intrinsic.all.length := by
  cases i <;> decide

namespace Heap

theorem object_of_size_le {h : Heap} {r : Ref} (hr : h.objects.size ≤ r.index) :
    h.object r = default := by
  unfold object
  rw [Array.getD_eq_getD_getElem?, Array.getElem?_eq_none hr]
  rfl

/-- Where there is no object stands one of the ordinary kind. -/
theorem live_of_kind {h : Heap} {r : Ref} (hr : h.kind r ≠ .ordinary) :
    r.index < h.objects.size := by
  rcases Nat.lt_or_ge r.index h.objects.size with hlt | hge
  · exact hlt
  · exact absurd (congrArg Object.kind (object_of_size_le hge)) hr

theorem object_allocate (h : Heap) (o : Object) (r : Ref) :
    (h.allocate o).2.object r = if r.index = h.objects.size then o else h.object r := by
  simp only [allocate, object, Array.getD_eq_getD_getElem?, Array.getElem?_push]
  split <;> rfl

theorem object_allocate_self (h : Heap) (o : Object) :
    (h.allocate o).2.object ⟨h.objects.size⟩ = o := by
  rw [object_allocate]
  exact if_pos rfl

theorem object_allocate_of_lt (h : Heap) (o : Object) {r : Ref} (hr : r.index < h.objects.size) :
    (h.allocate o).2.object r = h.object r := by
  rw [object_allocate]
  exact if_neg (Nat.ne_of_lt hr)

@[simp]
theorem size_allocate (h : Heap) (o : Object) :
    (h.allocate o).2.objects.size = h.objects.size + 1 := by
  simp [allocate]

theorem object_modify (h : Heap) (r p : Ref) (f : Object → Object) :
    (h.modify r f).object p =
      if p = r ∧ r.index < h.objects.size then f (h.object r) else h.object p := by
  simp only [modify, object, Array.getD_eq_getD_getElem?, Array.getElem?_modify]
  by_cases hp : p = r
  · subst hp
    by_cases hs : p.index < h.objects.size
    · simp [hs]
    · simp [hs]
  · have hi : ¬ r.index = p.index := by
      intro hi
      exact hp (by cases p; cases r; simp_all)
    simp [hp, hi]

@[simp]
theorem size_modify (h : Heap) (r : Ref) (f : Object → Object) :
    (h.modify r f).objects.size = h.objects.size := by
  simp [modify]

/-- Only what becomes of the object itself matters. -/
theorem modify_congr {h : Heap} {r : Ref} {f g : Object → Object}
    (hfg : f (h.object r) = g (h.object r)) : h.modify r f = h.modify r g := by
  unfold modify
  congr 1
  apply Array.ext
  · simp
  · intro i hi _
    simp only [Array.getElem_modify]
    split
    · next hri =>
      subst hri
      have hi' : r.index < h.objects.size := by simpa using hi
      simpa [object, Array.getD_eq_getD_getElem?, hi'] using hfg
    · rfl

theorem modify_modify (h : Heap) (r : Ref) (f g : Object → Object) :
    (h.modify r f).modify r g = h.modify r fun o => g (f o) := by
  unfold modify
  congr 1
  apply Array.ext
  · simp
  · intro i _ _
    simp only [Array.getElem_modify]
    split <;> rfl

@[simp]
theorem modify_id (h : Heap) (r : Ref) : h.modify r (fun o => o) = h := by
  unfold modify
  congr 1
  apply Array.ext
  · simp
  · intro i _ _
    simp [Array.getElem_modify]

/-- Changing an object right after it was added is adding the changed one. -/
theorem modify_allocate (h : Heap) (o : Object) (f : Object → Object) :
    (h.allocate o).2.modify (h.allocate o).1 f = (h.allocate (f o)).2 := by
  simp only [allocate, modify]
  congr 1
  apply Array.ext
  · simp
  · intro i hi _
    simp only [Array.size_modify, Array.size_push] at hi
    simp only [Array.getElem_modify, Array.getElem_push]
    by_cases hlast : h.objects.size = i
    · simp [hlast]
    · have : i < h.objects.size := by omega
      simp [hlast, this]

end Heap

/-- The number of objects. -/
def Machine.size (m : Machine) : Nat := m.heap.objects.size

/-- The machine with another heap. -/
def Machine.withHeap (m : Machine) (h : Heap) : Machine := { m with heap := h }

@[simp]
theorem Machine.size_withHeap (m : Machine) (h : Heap) : (m.withHeap h).size = h.objects.size := rfl

@[simp]
theorem Machine.heap_withHeap (m : Machine) (h : Heap) : (m.withHeap h).heap = h := rfl

/-- The machine with another object in a place. -/
def Machine.replace (m : Machine) (r : Ref) (o : Object) : Machine :=
  m.withHeap (m.heap.modify r fun _ => o)

namespace Machine

variable (m : Machine) (r : Ref)

theorem size_replace (o : Object) : (m.replace r o).size = m.size := Heap.size_modify ..

theorem replace_self : m.replace r (m.heap.object r) = m := by
  have hmodify : (m.heap.modify r fun _ => m.heap.object r) = m.heap.modify r fun o => o :=
    Heap.modify_congr rfl
  rw [replace, hmodify, Heap.modify_id]
  rfl

/-- Of two objects in one place the later one stays. -/
theorem replace_replace (o o' : Object) : (m.replace r o).replace r o' = m.replace r o' := by
  unfold replace
  rw [heap_withHeap, Heap.modify_modify]
  rfl

variable {m r}

theorem object_replace (hlive : r.index < m.size) (o : Object) (p : Ref) :
    (m.replace r o).heap.object p = if p = r then o else m.heap.object p := by
  have hlive : r.index < m.heap.objects.size := hlive
  show (m.heap.modify r _).object p = _
  rw [Heap.object_modify]
  simp only [hlive, and_true]

end Machine

/-- The machine after a run, however it ended. -/
def Run.final {α : Type} : EStateM.Result Halt Machine α → Machine
  | .ok _ m => m
  | .error _ m => m

/-- What a run gives. -/
def Run.given? {α : Type} : EStateM.Result Halt Machine α → Option α
  | .ok a _ => some a
  | .error _ _ => none

theorem Run.eq_ok_of_given? {α : Type} {res : EStateM.Result Halt Machine α} {a : α}
    (h : Run.given? res = some a) : res = .ok a (Run.final res) := by
  cases res with
  | ok a' m =>
    cases h
    rfl
  | error e m => cases h

/-- What a run throws. -/
def Run.thrown? {α : Type} : EStateM.Result Halt Machine α → Option Value
  | .error (.thrown v) _ => some v
  | _ => none

theorem Run.eq_error_of_thrown? {α : Type} {res : EStateM.Result Halt Machine α} {v : Value}
    (h : Run.thrown? res = some v) : res = .error (.thrown v) (Run.final res) := by
  cases res with
  | ok a m => cases h
  | error e m =>
    cases e with
    | thrown v' =>
      cases h
      rfl
    | outOfFuel => cases h

/-! ## Changes -/

def Object.isArray (o : Object) : Bool :=
  match o.kind with
  | .array _ _ => true
  | _ => false

namespace Object

variable {o : Object} {k : Key}

/-- Own properties other than an array's length are stored. -/
theorem ownDescriptor_eq (hk : o.isArray = true → k ≠ .length) :
    o.ownDescriptor k = (o.properties.find? k).map Property.toDescriptor := by
  unfold ownDescriptor
  split
  · next hkind => rw [if_neg (hk (by simp [isArray, hkind]))]
  · rfl

theorem ownDescriptor_length {length : Nat} {writable : Bool}
    (hkind : o.kind = .array length writable) :
    o.ownDescriptor .length = some (lengthDescriptor length writable) := by
  simp [ownDescriptor, hkind]

/-- A definition stores the revised property. -/
theorem exists_of_define? {o' : Object} {d : Descriptor} (h : o.define? k d = some o') :
    ∃ p, Property.revise o.extensible (o.properties.find? k) d = some p ∧
      o' = { o with properties := o.properties.insert k p } := by
  obtain ⟨p, hp, rfl⟩ := Option.map_eq_some_iff.1 h
  exact ⟨p, hp, rfl⟩

/-- A removal leaves the object without the key. -/
theorem exists_of_delete? {o' : Object} (h : o.delete? k = some o') :
    ∃ t : PropertyTable, o' = { o with properties := t } ∧
      (t = o.properties ∨ t = o.properties.remove k) := by
  unfold delete? at h
  split at h
  · cases h
    exact ⟨_, rfl, .inl rfl⟩
  · split at h
    · cases h
      exact ⟨_, rfl, .inr rfl⟩
    · cases h

theorem kind_define? {o' : Object} {d : Descriptor} (h : o.define? k d = some o') :
    o'.kind = o.kind := by
  obtain ⟨p, -, rfl⟩ := exists_of_define? h
  rfl

theorem kind_delete? {o' : Object} (h : o.delete? k = some o') : o'.kind = o.kind := by
  obtain ⟨t, rfl, -⟩ := exists_of_delete? h
  rfl

theorem exists_of_isArray (h : o.isArray = true) :
    ∃ length writable, o.kind = .array length writable := by
  unfold isArray at h
  split at h
  · next length writable hkind => exact ⟨length, writable, hkind⟩
  · cases h

end Object

/-- In an array the elements stand below the length, which is a word and no stored property. -/
def Object.Regular (o : Object) : Prop :=
  ∀ length writable, o.kind = .array length writable →
    o.properties.find? .length = none ∧
      (∀ i p, o.properties.find? (.index i) = some p → i < length) ∧ length ≤ Number.maxWord

namespace Cursor

/-- A cursor comes before another: first it is fresh, then it stands at ever higher positions, then
it is exhausted. -/
instance : LE Cursor where
  le
    | .fresh, _ => True
    | .active position, .active position' => position ≤ position'
    | _, .exhausted => True
    | _, _ => False

variable {c c' c'' : Cursor}

protected theorem le_refl (c : Cursor) : c ≤ c := by
  cases c with
  | fresh => trivial
  | active position => exact Nat.le_refl position
  | exhausted => trivial

protected theorem le_trans (h : c ≤ c') (h' : c' ≤ c'') : c ≤ c'' := by
  cases c <;> cases c' <;> cases c'' <;>
    first
    | exact Nat.le_trans h h'
    | exact h
    | exact h'
    | trivial

theorem le_exhausted (c : Cursor) : c ≤ .exhausted := by
  cases c <;> trivial

theorem active_le_active {position position' : Nat} :
    Cursor.active position ≤ .active position' ↔ position ≤ position' := Iff.rfl

/-- Past its position a cursor has moved on. -/
theorem le_active_succ {position : Nat} (h : c.position? = some position) :
    c ≤ .active (position + 1) := by
  cases c with
  | fresh => trivial
  | active p =>
    cases h
    exact Nat.le_succ position
  | exhausted => cases h

end Cursor

/-- A change of the slots that are not properties: the members of a map or a set, or the cursor of
an iterator, which moves on. -/
inductive Kind.Turn : Kind → Kind → Prop where
  | mapSet (data : MapData) (k v : Value) : Kind.Turn (.map data) (.map (data.set k v))
  | mapDelete (data : MapData) (k : Value) : Kind.Turn (.map data) (.map (data.delete k))
  | setAdd (data : SetData) (v : Value) : Kind.Turn (.set data) (.set (data.add v))
  | setDelete (data : SetData) (v : Value) : Kind.Turn (.set data) (.set (data.delete v))
  | cursor (source : IterationSource) {c c' : Cursor} (h : c ≤ c') :
      Kind.Turn (.iterator source c) (.iterator source c')

/-- One revision of an object.  A descriptor that defines a property is one of those that
`allows` admits; the length of an array has revisions of its own. -/
inductive Object.Revision (allows : Descriptor → Prop) (o : Object) : Object → Prop where
  | define {o' : Object} (k : Key) (d : Descriptor) (hd : allows d)
      (hk : o.isArray → k ≠ .length) (h : o.defineStored? k d = some o') : Revision allows o o'
  | delete {o' : Object} (k : Key) (hk : o.isArray → k ≠ .length) (h : o.delete? k = some o') :
      Revision allows o o'
  | restrictLength (d : Descriptor) : Revision allows o (o.restrictLength d).1
  | resize (length : Nat) (writable : Bool) (h : length ≤ Number.maxWord) :
      Revision allows o (o.resize length writable).1
  | close : Revision allows o { o with extensible := false }
  | turn {kind : Kind} (h : Kind.Turn o.kind kind) : Revision allows o { o with kind }

/-- One change of a machine.  A new object refers to places known at the heap's size before it, and
if it hides a target that exists.  Only the slots, or that it takes new properties, are changed of
an object that is not known. -/
inductive Machine.Change (knows : Nat → Ref → Prop) (allows : Descriptor → Prop) (m : Machine) :
    Machine → Prop where
  | beside {m' : Machine} (hheap : m'.heap = m.heap) (hoptions : m'.options = m.options)
      (hextensions : m'.extensions = m.extensions) (hsource : m'.source = m.source) :
      Change knows allows m m'
  | allocate (o : Object) (ho : ∀ r, refers o r → knows m.size r) (hregular : o.Regular)
      (hhidden : ∀ r, o.kind.hidden? = some r → r.index < m.size) :
      Change knows allows m (m.withHeap (m.heap.allocate o).2)
  | iteration (proto : Ref) (next : Symbol) (source : IterationSource)
      (hproto : knows m.size proto) (hsource : ∀ r, refers source r → knows m.size r) :
      Change knows allows m (Run.final (Engine.newIterationObject proto next source m))
  | symbol (description : Option Text) :
      Change knows allows m (m.withHeap (m.heap.allocateSymbol description).2)
  | revise (r : Ref) {o : Object} (h : Object.Revision allows (m.heap.object r) o)
      (hr : knows m.size r ∨ o.properties = (m.heap.object r).properties) :
      Change knows allows m (m.withHeap (m.heap.modify r fun _ => o))
  | relink (r : Ref) (p : Option Ref) (hr : (m.heap.object r).extensible = true)
      (hp : ∀ q, refers p q → knows m.size q)
      (hfree : m.heap.chainReaches r m.heap.objects.size p = some false)
      (hknown : knows m.size r) :
      Change knows allows m (m.withHeap (m.heap.modify r fun o => { o with prototype := p }))
  | install (h : m.extensions = none) : Change knows allows m (Run.final (Engine.install m))

end ObjectModel
