import Mathlib.Data.List.Nodup
import ObjectModel.Engine.Access
import ObjectModel.Proofs.Routine.Basic

/-!
# Objects and arrays from lists

A list of properties becomes an object, and a list of values an array, by definitions on an empty
one.  As long as an object takes new properties and has none but plain ones, none of the definitions
is refused (`Object.Open`), and an element at the end of an array moves the end on by one.  So the
loop comes to the same as adding the finished object to the heap (`newPlainObject_apply`,
`newArray_apply`).  An array has no place for more values than there are indexes; the loop then
throws at the first one left (`newArray_eq`).
-/

namespace ObjectModel

/-! ## Tables of plain properties -/

/-- A table of plain properties. -/
def Engine.plainTable (ps : List (Key × Value)) : PropertyTable :=
  PropertyTable.empty.insertAll (ps.map fun (k, v) => (k, .data v true true true))

theorem find?_plainTable {ps : List (Key × Value)} {k : Key} {p : Property}
    (h : (Engine.plainTable ps).find? k = some p) :
    ∃ v, (k, v) ∈ ps ∧ p = .data v true true true := by
  rcases Slots.find?_insertAll_cases h with h | h
  · exact absurd h (by simp [PropertyTable.empty])
  · obtain ⟨⟨k', v⟩, hmem, heq⟩ := List.mem_map.1 h
    cases heq
    exact ⟨v, hmem, rfl⟩

/-- The entry of a key that is listed once. -/
theorem find?_plainTable_of_mem {ps : List (Key × Value)} (hps : (ps.map Prod.fst).Nodup) {k : Key}
    {v : Value} (hk : (k, v) ∈ ps) :
    (Engine.plainTable ps).find? k = some (.data v true true true) := by
  have hkeys : k ∈ (ps.map fun e => (e.1, Property.data e.2 true true true)).map Prod.fst := by
    rw [List.map_map]
    exact List.mem_map.2 ⟨_, hk, rfl⟩
  obtain ⟨p, -, hfind⟩ := Slots.find?_insertAll_of_mem (s := PropertyTable.empty) hkeys
  obtain ⟨v', hmem, rfl⟩ := find?_plainTable hfind
  have hsame : v' = v := by
    have hpair := List.inj_on_of_nodup_map hps hmem hk rfl
    exact congrArg Prod.snd hpair
  rw [hsame] at hfind
  exact hfind

/-- A table of plain properties is read as the list of its entries. -/
theorem find?_plainTable_eq {ps : List (Key × Value)} (hps : (ps.map Prod.fst).Nodup) (k : Key) :
    (Engine.plainTable ps).find? k = (ps.lookup k).map fun v => .data v true true true := by
  cases hlookup : ps.lookup k with
  | some v =>
    obtain ⟨before, after, rfl, -⟩ := List.lookup_eq_some_iff.1 hlookup
    exact find?_plainTable_of_mem hps (by simp)
  | none =>
    rw [Option.map_none, Option.eq_none_iff_forall_ne_some]
    intro p hp
    obtain ⟨v, hmem, -⟩ := find?_plainTable hp
    exact absurd (List.lookup_eq_none_iff.1 hlookup _ hmem) (by simp)

/-! ## The finished objects -/

/-- The elements of an array of the given values. -/
def listed (vs : List Value) : List (Key × Value) := vs.zipIdx.map fun e => (.index e.2, e.1)

namespace Object

/-- The object that inherits from the object prototype and has the given plain properties. -/
def plain (ps : List (Key × Value)) : Object :=
  { Object.new (some Intrinsic.objectPrototype.ref) .ordinary with
    properties := Engine.plainTable ps }

/-- The object that is an array of the given values. -/
def listing (vs : List Value) : Object :=
  { Object.new (some Intrinsic.arrayPrototype.ref) (.array vs.length true) with
    properties := Engine.plainTable (listed vs) }

/-- An array of as many values as there are indexes is regular. -/
theorem regular_listing {vs : List Value} (hlimit : vs.length ≤ indexLimit) :
    (listing vs).Regular := by
  -- what the table holds was put there, at an index below the number of values
  have hfound : ∀ k p, (Engine.plainTable (listed vs)).find? k = some p →
      ∃ i < vs.length, k = .index i := by
    intro k p h
    obtain ⟨v, hmem, -⟩ := find?_plainTable h
    obtain ⟨⟨w, i⟩, hi, heq⟩ := List.mem_map.1 hmem
    cases heq
    exact ⟨i, List.snd_lt_of_mem_zipIdx hi, rfl⟩
  intro length writable hkind
  cases hkind
  refine ⟨Option.eq_none_iff_forall_ne_some.2 fun p h => ?_, fun i p h => ?_, hlimit⟩
  · obtain ⟨i, -, hi⟩ := hfound _ p h
    exact Key.length_ne_index i hi
  · obtain ⟨j, hj, hij⟩ := hfound _ p h
    cases hij
    exact hj

/-! ## Single definitions -/

/-- The object takes new properties, and all that it has are plain. -/
structure Open (o : Object) : Prop where
  extensible : o.extensible = true
  plain : ∀ k p, o.properties.find? k = some p → ∃ v, p = .data v true true true

/-- The object with a further plain property. -/
def withPlain (o : Object) (k : Key) (v : Value) : Object :=
  { o with properties := o.properties.insert k (.data v true true true) }

variable {o : Object}

theorem Open.new (proto : Option Ref) (kind : Kind) : (Object.new proto kind).Open :=
  ⟨rfl, fun k p h => absurd h (by simp [Object.new, PropertyTable.empty])⟩

theorem Open.withPlain (h : o.Open) (k : Key) (v : Value) : (o.withPlain k v).Open := by
  refine ⟨h.extensible, fun k' p hp => ?_⟩
  have hp : (o.properties.insert k (.data v true true true)).find? k' = some p := hp
  rw [Slots.find?_insert] at hp
  split at hp
  · cases hp
    exact ⟨v, rfl⟩
  · exact h.plain k' p hp

theorem Open.withLength (h : o.Open) (length : Nat) (writable : Bool) :
    (o.withLength length writable).Open := ⟨h.extensible, h.plain⟩

theorem Open.define? (h : o.Open) (k : Key) (v : Value) :
    o.define? k (.plain v) = some (o.withPlain k v) := by
  have hrevise : Property.revise o.extensible (o.properties.find? k) (.plain v) =
      some (.data v true true true) := by
    rw [h.extensible]
    cases hfind : o.properties.find? k with
    | none => rfl
    | some p =>
      obtain ⟨w, rfl⟩ := h.plain k p hfind
      rfl
  unfold Object.define?
  rw [hrevise]
  rfl

theorem Open.defineStored? (h : o.Open) (hkind : o.isArray = false) (k : Key) (v : Value) :
    o.defineStored? k (.plain v) = some (o.withPlain k v) := by
  rw [← h.define? k v]
  unfold Object.defineStored?
  split
  · unfold defineElement?
    split
    · next hk => simp [isArray, hk] at hkind
    · rfl
  · rfl

variable {n : Nat}

/-- An element at the end of an array moves the end on. -/
theorem Open.defineElement? (h : o.Open) (hkind : o.kind = .array n true) (hn : n < indexLimit)
    (v : Value) :
    o.defineElement? n (.plain v) =
      some ((o.withPlain (.index n) v).withLength (n + 1) true) := by
  have hfree : ¬ (decide (n ≤ n) && (!true || decide (indexLimit ≤ n))) = true := by
    simp [Nat.not_le.2 hn]
  unfold Object.defineElement?
  rw [hkind, h.define?]
  show (if _ then none else some (if n ≤ n then _ else _)) = _
  rw [if_neg hfree, if_pos (Nat.le_refl n)]

/-- There are no elements beyond the last index. -/
theorem defineElement?_limit (hkind : o.kind = .array indexLimit true) (d : Descriptor) :
    o.defineElement? indexLimit d = none := by
  unfold defineElement?
  rw [hkind]
  simp

end Object

theorem Key.ofPosition_of_le {i : Nat} (hi : i ≤ indexLimit) : Key.ofPosition i = .index i := by
  have hword : i < Number.maxWord + 1 := Nat.lt_succ_of_le hi
  rw [Key.ofPosition, Nat.mod_eq_of_lt hword]

/-! ## Definitions one after the other -/

/-- What the definitions of plain properties make of an object, unless one is refused. -/
def Object.addPlain? (o : Object) (ps : List (Key × Value)) : Option Object :=
  ps.foldlM (fun a e => a.defineStored? e.1 (.plain e.2)) o

theorem Object.Open.addPlain? {o : Object} (h : o.Open) (hkind : o.isArray = false)
    (ps : List (Key × Value)) :
    o.addPlain? ps = some { o with
      properties := o.properties.insertAll
        (ps.map fun (k, v) => (k, .data v true true true)) } := by
  induction ps generalizing o with
  | nil => rfl
  | cons e rest ih =>
    rw [Object.addPlain?, List.foldlM_cons, h.defineStored? hkind]
    exact ih (h.withPlain e.1 e.2) hkind

/-- The positions from `n` on, with the values stored there. -/
def positioned (n : Nat) (vs : List Value) : List (Key × Value) :=
  (vs.zipIdx n).map fun (v, i) => (.ofPosition i, v)

theorem Object.Open.addPlain?_positioned {o : Object} {n : Nat} (h : o.Open)
    (hkind : o.kind = .array n true) {vs : List Value} (hlimit : n + vs.length ≤ indexLimit) :
    o.addPlain? (positioned n vs) =
      some { o with
        kind := .array (n + vs.length) true
        properties := o.properties.insertAll
          ((vs.zipIdx n).map fun (v, i) => (.index i, .data v true true true)) } := by
  induction vs generalizing o n with
  | nil =>
    obtain ⟨prototype, extensible, properties, kind⟩ := o
    cases hkind
    rfl
  | cons v rest ih =>
    rw [List.length_cons] at hlimit
    have hn : n < indexLimit := by omega
    have hfirst : o.defineStored? (Key.ofPosition n) (.plain v) =
        some ((o.withPlain (.index n) v).withLength (n + 1) true) := by
      rw [Key.ofPosition_of_le (Nat.le_of_lt hn)]
      exact h.defineElement? hkind hn v
    have hrest := ih ((h.withPlain (.index n) v).withLength (n + 1) true) rfl (by omega)
    rw [Nat.add_right_comm, Nat.add_assoc] at hrest
    show ((Key.ofPosition n, v) :: positioned (n + 1) rest).foldlM _ o = _
    rw [List.foldlM_cons, hfirst]
    exact hrest

namespace Engine

theorem reviseObject_apply (o : Ref) (f : Object → Option Object) (m : Machine) :
    reviseObject o f m =
      match f (m.heap.object o) with
      | some revised => .ok true (m.withHeap (m.heap.modify o fun _ => revised))
      | none => .ok false m := by
  unfold reviseObject
  rw [Run.bind_apply]
  simp only [Run.object]
  cases f (m.heap.object o) <;> rfl

/-- **Definitions that are not refused replace the object.** -/
theorem addPlain_apply {o : Ref} {m : Machine} {a : Object} {ps : List (Key × Value)}
    (hlive : o.index < m.size) (h : (m.heap.object o).addPlain? ps = some a) :
    addPlain o ps m = .ok () (m.replace o a) := by
  induction ps generalizing m with
  | nil =>
    cases h
    rw [Machine.replace_self]
    rfl
  | cons e rest ih =>
    rw [Object.addPlain?, List.foldlM_cons] at h
    obtain ⟨a₁, hfirst, hrest⟩ := Option.bind_eq_some_iff.1 h
    have hobject : (m.replace o a₁).heap.object o = a₁ := by
      rw [Machine.object_replace hlive, if_pos rfl]
    have hrevise : reviseObject o (fun a => a.defineStored? e.1 (.plain e.2)) m =
        .ok true (m.replace o a₁) := by
      rw [reviseObject_apply, hfirst]
      rfl
    have hloop := ih (m := m.replace o a₁) (by rwa [Machine.size_replace]) (by rwa [hobject])
    rw [Machine.replace_replace] at hloop
    rw [addPlain, Run.bind_ok hrevise]
    exact hloop

theorem addPlain_append (o : Ref) (ps qs : List (Key × Value)) :
    addPlain o (ps ++ qs) = addPlain o ps >>= fun _ => addPlain o qs := by
  induction ps with
  | nil => rfl
  | cons e rest ih =>
    rw [List.cons_append, addPlain, addPlain, ih, bind_assoc]
    refine bind_congr fun done => ?_
    cases done with
    | true => rfl
    | false => exact (bind_assoc ..).symm

end Engine

/-! ## New objects and arrays -/

theorem Machine.replace_allocate (m : Machine) (o o' : Object) :
    (m.withHeap (m.heap.allocate o).2).replace ⟨m.size⟩ o' =
      m.withHeap (m.heap.allocate o').2 := by
  rw [Machine.replace, Machine.heap_withHeap]
  exact congrArg m.withHeap (Heap.modify_allocate m.heap o fun _ => o')

/-- A new object that is built up stands in the heap as it is when it is finished. -/
theorem Engine.addPlain_allocate {o a : Object} {ps : List (Key × Value)}
    (h : o.addPlain? ps = some a) (m : Machine) :
    Engine.addPlain ⟨m.size⟩ ps (m.withHeap (m.heap.allocate o).2) =
      .ok () (m.withHeap (m.heap.allocate a).2) := by
  have hobject : (m.withHeap (m.heap.allocate o).2).heap.object ⟨m.size⟩ = o :=
    Heap.object_allocate_self m.heap o
  have hlive : m.size < (m.withHeap (m.heap.allocate o).2).size := by
    rw [Machine.size_withHeap, Heap.size_allocate]
    exact Nat.lt_succ_self _
  have hadd := Engine.addPlain_apply (o := ⟨m.size⟩) hlive (by rwa [hobject])
  rwa [Machine.replace_allocate] at hadd

/-- **Properties defined one after the other on a new object come to the object that has them
all.** -/
theorem newPlainObject_apply (ps : List (Key × Value)) (m : Machine) :
    Engine.newPlainObject ps m = .ok ⟨m.size⟩ (m.withHeap (m.heap.allocate (.plain ps)).2) := by
  have hadd := Engine.addPlain_allocate
    ((Object.Open.new (some Intrinsic.objectPrototype.ref) .ordinary).addPlain? rfl ps) m
  exact Run.bind_ok hadd

theorem addPlain?_new {vs : List Value} (hlimit : vs.length ≤ indexLimit) :
    (Object.new (some Intrinsic.arrayPrototype.ref) (.array 0 true)).addPlain? (positioned 0 vs) =
      some (.listing vs) := by
  rw [(Object.Open.new _ _).addPlain?_positioned rfl (by rwa [Nat.zero_add])]
  simp only [Object.new, Object.listing, Engine.plainTable, listed, Nat.zero_add, List.map_map]
  rfl

/-- **Values stored one after the other in a new array come to the array of the values**, as long as
there are indexes for them. -/
theorem newArray_apply {vs : List Value} (hlimit : vs.length ≤ indexLimit) (m : Machine) :
    Engine.newArray vs m = .ok ⟨m.size⟩ (m.withHeap (m.heap.allocate (.listing vs)).2) :=
  Run.bind_ok (Engine.addPlain_allocate (addPlain?_new hlimit) m)

theorem newPair_apply (v w : Value) (m : Machine) :
    Engine.newPair v w m =
      .ok (.object ⟨m.size⟩) (m.withHeap (m.heap.allocate (.listing [v, w])).2) := by
  have htwo : [v, w].length ≤ indexLimit := show 2 ≤ indexLimit by decide
  exact Run.bind_ok (newArray_apply htwo m)

theorem newPlainObject_eq (ps : List (Key × Value)) :
    Engine.newPlainObject ps = Run.allocate (.plain ps) := by
  funext m
  exact newPlainObject_apply ps m

/-- **A value for which there is no index is refused.**  The values before it are stored. -/
theorem newArray_beyond {vs : List Value} (hgt : indexLimit < vs.length) (m : Machine) :
    Engine.newArray vs m =
      (Run.fail .propertyNotCreated : Run Ref)
        (m.withHeap (m.heap.allocate (.listing (vs.take indexLimit))).2) := by
  have htake : (vs.take indexLimit).length = indexLimit :=
    List.length_take_of_le (Nat.le_of_lt hgt)
  have hsplit : positioned 0 vs = positioned 0 (vs.take indexLimit) ++
      (Key.ofPosition indexLimit, vs[indexLimit]) ::
        positioned (indexLimit + 1) (vs.drop (indexLimit + 1)) := by
    conv_lhs => rw [← List.take_append_drop indexLimit vs, List.drop_eq_getElem_cons hgt]
    unfold positioned
    rw [List.zipIdx_append, List.map_append, htake, Nat.zero_add]
    rfl
  let m₁ := m.withHeap (m.heap.allocate (.listing (vs.take indexLimit))).2
  have hadd : Engine.addPlain ⟨m.size⟩ (positioned 0 (vs.take indexLimit)) _ = .ok () m₁ :=
    Engine.addPlain_allocate (addPlain?_new (Nat.le_of_eq htake)) m
  have hnone : (m₁.heap.object ⟨m.size⟩).defineStored? (Key.ofPosition indexLimit)
      (.plain vs[indexLimit]) = none := by
    have hobject : m₁.heap.object ⟨m.size⟩ = .listing (vs.take indexLimit) :=
      Heap.object_allocate_self m.heap _
    have hkind : (Object.listing (vs.take indexLimit)).kind = .array indexLimit true :=
      congrArg (Kind.array · true) htake
    rw [hobject, Key.ofPosition_of_le (Nat.le_refl _)]
    exact Object.defineElement?_limit hkind _
  have hrefused : Engine.reviseObject ⟨m.size⟩
      (fun a => a.defineStored? (Key.ofPosition indexLimit) (.plain vs[indexLimit])) m₁ =
        .ok false m₁ := by
    rw [Engine.reviseObject_apply, hnone]
  show (Engine.addPlain ⟨m.size⟩ (positioned 0 vs) >>= fun _ => (pure ⟨m.size⟩ : Run Ref))
    (m.withHeap (m.heap.allocate (.new (some Intrinsic.arrayPrototype.ref) (.array 0 true))).2) = _
  rw [hsplit, Engine.addPlain_append, bind_assoc, Run.bind_ok hadd, Engine.addPlain, bind_assoc,
    Run.bind_ok hrefused]
  rfl

/-- **An array takes as many values as there are indexes**, and throws if one is left. -/
theorem newArray_eq (vs : List Value) :
    Engine.newArray vs = Run.allocate (.listing (vs.take indexLimit)) >>= fun a =>
      if vs.length ≤ indexLimit then pure a else Run.fail .propertyNotCreated := by
  by_cases hlimit : vs.length ≤ indexLimit
  · simp only [List.take_of_length_le hlimit, if_pos hlimit]
    funext m
    exact newArray_apply hlimit m
  · simp only [if_neg hlimit]
    funext m
    exact newArray_beyond (Nat.lt_of_not_le hlimit) m

end ObjectModel
