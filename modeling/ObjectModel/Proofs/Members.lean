import ObjectModel.Proofs.Description
import ObjectModel.Proofs.Taking

/-!
# The members of maps and sets in their slots

A map or a set is a list of slots, some of them empty (`Heap.members`).  An edit stores a member in
the slot of its key, in a new slot at the end if it has none, or empties the slot (`Edit.apply`).
So a slot is used for one insertion: once it is there, whatever stands in it later stood in it all
the time, under the same key (`Edit.kept`).

An iterator looks for the next slot that is not empty (`nextSlot?`).  Its step finds it whatever
the engine is, hands out the member that stands there, and leaves all else as it was
(`Engine.advance_walks`).
-/

namespace ObjectModel

/-! ## Slots -/

/-- The key of a member. -/
def Element.key? : Element → Option Value
  | .value v => some v
  | .pair k _ => some k
  | _ => none

/-- The members of a map or a set, as an iterator sees them. -/
def Kind.members : Kind → List (Option Element)
  | .map data => data.cells.toList.map (Option.map fun e => .pair e.1 e.2)
  | .set data => data.cells.toList.map (Option.map fun e => .value e.1)
  | _ => []

/-- The slot of a key. -/
def slotOf (k : Value) (members : List (Option Element)) : Option Nat :=
  members.findIdx? fun cell => cell.any fun e => e.key? == some k

/-- The slots with a member stored under its key. -/
def storeMember (k : Value) (e : Element) (members : List (Option Element)) :
    List (Option Element) :=
  match slotOf k members with
  | some slot => members.set slot (some e)
  | none => members ++ [some e]

/-- The slots without the member of a key. -/
def clearMember (k : Value) (members : List (Option Element)) : List (Option Element) :=
  match slotOf k members with
  | some slot => members.set slot none
  | none => members

/-- A change of a map or a set. -/
inductive Edit where
  | mapSet (k v : Value)
  | mapDelete (k : Value)
  | setAdd (v : Value)
  | setDelete (v : Value)

namespace Edit

def run (collection : Ref) : Edit → Run Unit
  | .mapSet k v => Engine.mapSet (.object collection) k v
  | .mapDelete k => do let _ ← Engine.mapDelete (.object collection) k
  | .setAdd v => Engine.setAdd (.object collection) v
  | .setDelete v => do let _ ← Engine.setDelete (.object collection) v

/-- Maps and sets have edits of their own. -/
def Suits : Edit → Kind → Prop
  | .mapSet _ _, .map _ | .mapDelete _, .map _ | .setAdd _, .set _ | .setDelete _, .set _ => True
  | _, _ => False

/-- What an edit makes of the slots. -/
def apply : Edit → List (Option Element) → List (Option Element)
  | .mapSet k v => storeMember k.canonicalKey (.pair k.canonicalKey v)
  | .mapDelete k => clearMember k.canonicalKey
  | .setAdd v => storeMember v.canonicalKey (.value v.canonicalKey)
  | .setDelete v => clearMember v.canonicalKey

end Edit

namespace Slots

variable {β : Type} {f : Value × β → Element} (hf : ∀ e, (f e).key? = some e.1)
  (s : Slots Value β) (k : Value)

include hf

theorem slotOf_map : slotOf k (s.cells.toList.map (Option.map f)) = s.index[k]? := by
  have hsearch := position?_eq_findIdx? (s := s) (k := k) (p := fun e => (f e).key? == some k)
    fun e _ => by rw [hf, beq_iff_eq, Option.some.injEq]
  rw [slotOf, List.findIdx?_map]
  refine Eq.trans ?_ hsearch.symm
  congr 1
  funext cell
  cases cell <;> rfl

theorem map_insert (b : β) : (s.insert k b).cells.toList.map (Option.map f) =
    storeMember k (f (k, b)) (s.cells.toList.map (Option.map f)) := by
  have hslot := slotOf_map hf s k
  rw [insert]
  split
  · next i hi =>
    rw [storeMember, hslot.trans hi]
    simp [List.map_set]
  · next hi =>
    rw [storeMember, hslot.trans hi]
    simp

theorem map_erase : (s.erase k).cells.toList.map (Option.map f) =
    clearMember k (s.cells.toList.map (Option.map f)) := by
  have hslot := slotOf_map hf s k
  rw [erase]
  split
  · next i hi =>
    rw [clearMember, hslot.trans hi]
    simp [List.map_set]
  · next hi => rw [clearMember, hslot.trans hi]

end Slots

/-! ### What edits keep -/

section Kept

variable {k : Value} {e e' : Element} {members : List (Option Element)} {slot : Nat}

/-- The slot of a key holds a member of that key. -/
theorem exists_of_slotOf (h : slotOf k members = some slot) :
    ∃ e, members[slot]? = some (some e) ∧ e.key? = some k := by
  obtain ⟨hslot, hat, -⟩ := List.findIdx?_eq_some_iff_getElem.1 h
  cases hcell : members[slot] with
  | none =>
    rw [hcell] at hat
    cases hat
  | some e =>
    rw [hcell, Option.any_some, beq_iff_eq] at hat
    exact ⟨e, by rw [List.getElem?_eq_getElem hslot, hcell], hat⟩

theorem kept_storeMember (he : e.key? = some k)
    (h : (storeMember k e members)[slot]? = some (some e')) (hslot : slot < members.length) :
    ∃ e₀, members[slot]? = some (some e₀) ∧ e₀.key? = e'.key? := by
  unfold storeMember at h
  split at h
  · next i hi =>
    rw [List.getElem?_set] at h
    split at h
    · next heq =>
      subst heq
      rw [if_pos hslot] at h
      cases h
      obtain ⟨e₀, he₀, hkey⟩ := exists_of_slotOf hi
      exact ⟨e₀, he₀, hkey.trans he.symm⟩
    · exact ⟨e', h, rfl⟩
  · rw [List.getElem?_append_left hslot] at h
    exact ⟨e', h, rfl⟩

theorem kept_clearMember (h : (clearMember k members)[slot]? = some (some e')) :
    members[slot]? = some (some e') := by
  unfold clearMember at h
  split at h
  · rw [List.getElem?_set] at h
    split at h
    · split at h <;> cases h
    · exact h
  · exact h

/-- **A member in a slot that was there before was there before, under the same key.** -/
theorem Edit.kept (edit : Edit) (h : (edit.apply members)[slot]? = some (some e'))
    (hslot : slot < members.length) :
    ∃ e₀, members[slot]? = some (some e₀) ∧ e₀.key? = e'.key? := by
  cases edit with
  | mapSet k v => exact kept_storeMember rfl h hslot
  | mapDelete k => exact ⟨e', kept_clearMember h, rfl⟩
  | setAdd v => exact kept_storeMember rfl h hslot
  | setDelete v => exact ⟨e', kept_clearMember h, rfl⟩

/-- No slot is lost. -/
theorem Edit.length_le (edit : Edit) (members : List (Option Element)) :
    members.length ≤ (edit.apply members).length := by
  have hstore (k : Value) (e : Element) :
      members.length ≤ (storeMember k e members).length := by
    unfold storeMember
    split <;> simp
  have hclear (k : Value) : members.length ≤ (clearMember k members).length := by
    unfold clearMember
    split <;> simp
  cases edit with
  | mapSet k v => exact hstore _ _
  | mapDelete k => exact hclear _
  | setAdd v => exact hstore _ _
  | setDelete v => exact hclear _

end Kept

/-! ### The runs of edits -/

theorem Engine.requireMap_map {m : Machine} {c : Ref} {data : MapData}
    (h : m.heap.kind c = .map data) : requireMap (.object c) m = .ok (c, data) m := by
  simp only [requireMap, Run.bind_apply, Run.kind, h, Run.pure_apply]

theorem Engine.requireSet_set {m : Machine} {c : Ref} {data : SetData}
    (h : m.heap.kind c = .set data) : requireSet (.object c) m = .ok (c, data) m := by
  simp only [requireSet, Run.bind_apply, Run.kind, h, Run.pure_apply]

namespace Edit

variable {edit : Edit} {m m' : Machine} {c : Ref}

/-- **An edit of a collection of its kind ends**, and changes the slots only. -/
theorem run_apply (h : edit.Suits (m.heap.kind c)) :
    ∃ kind, edit.run c m = .ok () (m.withHeap (m.heap.modify c fun o => { o with kind })) ∧
      kind.members = edit.apply (m.heap.kind c).members ∧ Kind.Turn (m.heap.kind c) kind := by
  cases hkind : m.heap.kind c with
  | map data =>
    rw [hkind] at h
    have hrequire := Engine.requireMap_map hkind
    cases edit with
    | mapSet k v =>
      exact ⟨.map (data.set k v), Run.bind_ok hrequire, Slots.map_insert (fun _ => rfl) data _ v,
        .mapSet data k v⟩
    | mapDelete k =>
      refine ⟨.map (data.delete k), ?_, Slots.map_erase (fun _ => rfl) data _, .mapDelete data k⟩
      show (Engine.mapDelete (.object c) k >>= _) m = _
      rw [Engine.mapDelete, bind_assoc, Run.bind_ok hrequire]
      rfl
    | _ => exact h.elim
  | set data =>
    rw [hkind] at h
    have hrequire := Engine.requireSet_set hkind
    cases edit with
    | setAdd v =>
      exact ⟨.set (data.add v), Run.bind_ok hrequire, Slots.map_insert (fun _ => rfl) data _ (),
        .setAdd data v⟩
    | setDelete v =>
      refine ⟨.set (data.delete v), ?_, Slots.map_erase (fun _ => rfl) data _, .setDelete data v⟩
      show (Engine.setDelete (.object c) v >>= _) m = _
      rw [Engine.setDelete, bind_assoc, Run.bind_ok hrequire]
      rfl
    | _ => exact h.elim
  | _ =>
    rw [hkind] at h
    cases edit <;> exact h.elim

/-- Every other receiver is refused. -/
theorem suits_of_run (h : edit.run c m = .ok () m') : edit.Suits (m.heap.kind c) := by
  have hmap {α : Type} {f : Ref × MapData → Run α} {x : α}
      (h : (Engine.requireMap (.object c) >>= f) m = .ok x m') :
      ∃ data, m.heap.kind c = .map data := by
    simp only [Engine.requireMap, Run.bind_apply, Run.kind] at h
    cases hkind : m.heap.kind c with
    | map data => exact ⟨data, rfl⟩
    | _ =>
      rw [hkind] at h
      cases h
  have hset {α : Type} {f : Ref × SetData → Run α} {x : α}
      (h : (Engine.requireSet (.object c) >>= f) m = .ok x m') :
      ∃ data, m.heap.kind c = .set data := by
    simp only [Engine.requireSet, Run.bind_apply, Run.kind] at h
    cases hkind : m.heap.kind c with
    | set data => exact ⟨data, rfl⟩
    | _ =>
      rw [hkind] at h
      cases h
  cases edit with
  | mapSet k v =>
    obtain ⟨data, hkind⟩ := hmap h
    rw [hkind]
    trivial
  | mapDelete k =>
    have h : (Engine.mapDelete (.object c) k >>= _) m = _ := h
    rw [Engine.mapDelete, bind_assoc] at h
    obtain ⟨data, hkind⟩ := hmap h
    rw [hkind]
    trivial
  | setAdd v =>
    obtain ⟨data, hkind⟩ := hset h
    rw [hkind]
    trivial
  | setDelete v =>
    have h : (Engine.setDelete (.object c) v >>= _) m = _ := h
    rw [Engine.setDelete, bind_assoc] at h
    obtain ⟨data, hkind⟩ := hset h
    rw [hkind]
    trivial

end Edit

/-! ## Walking over slots -/

/-- The first slot from a position on that is not empty. -/
def nextSlot? (members : List (Option Element)) (position : Nat) : Option Nat :=
  ((members.drop position).findIdx? Option.isSome).map (position + ·)

section NextSlot

variable {members : List (Option Element)} {p q : Nat} {e : Element}

theorem nextSlot?_finished (h : members[p]? = none) : nextSlot? members p = none := by
  have hp : members.length ≤ p := List.getElem?_eq_none_iff.1 h
  rw [nextSlot?, List.drop_eq_nil_of_le hp]
  rfl

theorem nextSlot?_hole (h : members[p]? = some none) :
    nextSlot? members p = nextSlot? members (p + 1) := by
  obtain ⟨hp, hcell⟩ := List.getElem?_eq_some_iff.1 h
  rw [nextSlot?, nextSlot?, List.drop_eq_getElem_cons hp, hcell, List.findIdx?_cons]
  cases (members.drop (p + 1)).findIdx? Option.isSome with
  | none => rfl
  | some j =>
    simp
    omega

theorem nextSlot?_member (h : members[p]? = some (some e)) : nextSlot? members p = some p := by
  obtain ⟨hp, hcell⟩ := List.getElem?_eq_some_iff.1 h
  rw [nextSlot?, List.drop_eq_getElem_cons hp, hcell, List.findIdx?_cons]
  rfl

/-- The slot found holds a member, and those before it are empty. -/
theorem nextSlot?_eq_some (h : nextSlot? members p = some q) :
    p ≤ q ∧ (∃ e, members[q]? = some (some e)) ∧
      ∀ i e, p ≤ i → members[i]? = some (some e) → q ≤ i := by
  obtain ⟨j, hj, rfl⟩ := Option.map_eq_some_iff.1 h
  obtain ⟨hlt, hat, hbefore⟩ := List.findIdx?_eq_some_iff_getElem.1 hj
  rw [List.getElem_drop] at hat
  rw [List.length_drop] at hlt
  obtain ⟨e, he⟩ := Option.isSome_iff_exists.1 hat
  refine ⟨Nat.le_add_right p j, ⟨e, ?_⟩, fun i e' hi he' => ?_⟩
  · rw [List.getElem?_eq_getElem (by omega), he]
  · refine Nat.le_of_not_lt fun hlt' => hbefore (i - p) (by omega) ?_
    obtain ⟨hi', hcell⟩ := List.getElem?_eq_some_iff.1 he'
    have hsame : p + (i - p) = i := by omega
    simp only [List.getElem_drop, hsame, hcell, Option.isSome_some]

theorem nextSlot?_eq_none (h : nextSlot? members p = none) {i : Nat}
    (hi : members[i]? = some (some e)) : i < p := by
  rw [nextSlot?, Option.map_eq_none_iff, List.findIdx?_eq_none_iff] at h
  refine Nat.lt_of_not_le fun hle => ?_
  have hmem : some e ∈ members.drop p := by
    refine List.mem_iff_getElem?.2 ⟨i - p, ?_⟩
    rw [List.getElem?_drop, show p + (i - p) = i by omega]
    exact hi
  simpa using h _ hmem

end NextSlot

/-- The collection that a source walks over. -/
inductive Heap.Walks (h : Heap) (c : Ref) : IterationSource → Prop where
  | map (data : MapData) (hkind : h.kind c = .map data) : Walks h c (.mapEntries c)
  | set (data : SetData) (hkind : h.kind c = .set data) : Walks h c (.setValues c)

namespace Heap.Walks

variable {h h' : Heap} {c : Ref} {source : IterationSource}

theorem elementAt (hw : h.Walks c source) (position : Nat) :
    h.elementAt source position =
      match (h.kind c).members[position]? with
      | some (some e) => e
      | some none => .hole
      | none => .finished := by
  cases hw with
  | map data hkind =>
    simp only [Heap.elementAt, hkind, Kind.members, List.getElem?_map, Array.getElem?_toList]
    rcases data.cells[position]? with _ | _ | _ <;> rfl
  | set data hkind =>
    simp only [Heap.elementAt, hkind, Kind.members, List.getElem?_map, Array.getElem?_toList]
    rcases data.cells[position]? with _ | _ | _ <;> rfl

theorem skippable (hw : h.Walks c source) : h.skippable source = (h.kind c).members.length := by
  cases hw with
  | map data hkind => simp [Heap.skippable, hkind, Kind.members, Slots.extent]
  | set data hkind => simp [Heap.skippable, hkind, Kind.members, Slots.extent]

/-- A member of a set is a value, a member of a map a pair. -/
theorem member_cases (hw : h.Walks c source) {slot : Nat} {e : Element}
    (he : (h.kind c).members[slot]? = some (some e)) :
    (∃ v, e = .value v) ∨ ∃ k v, e = .pair k v := by
  cases hw with
  | map data hkind =>
    rw [hkind, Kind.members, List.getElem?_map] at he
    obtain ⟨cell, -, hcell⟩ := Option.map_eq_some_iff.1 he
    obtain ⟨entry, -, rfl⟩ := Option.map_eq_some_iff.1 hcell
    exact .inr ⟨_, _, rfl⟩
  | set data hkind =>
    rw [hkind, Kind.members, List.getElem?_map] at he
    obtain ⟨cell, -, hcell⟩ := Option.map_eq_some_iff.1 he
    obtain ⟨entry, -, rfl⟩ := Option.map_eq_some_iff.1 hcell
    exact .inl ⟨_, rfl⟩

/-- Only the kind of the collection matters. -/
theorem congr (hw : h.Walks c source) (hkind : h'.kind c = h.kind c) : h'.Walks c source := by
  cases hw with
  | map data hmap => exact .map data (hkind.trans hmap)
  | set data hset => exact .set data (hkind.trans hset)

/-- A collection that is edited stays one. -/
theorem turn (hw : h.Walks c source) (hkind : Kind.Turn (h.kind c) (h'.kind c)) :
    h'.Walks c source := by
  cases hw with
  | map data hmap =>
    rw [hmap] at hkind
    generalize hnew : h'.kind c = new at hkind
    cases hkind <;> exact .map _ hnew
  | set data hset =>
    rw [hset] at hkind
    generalize hnew : h'.kind c = new at hkind
    cases hkind <;> exact .set _ hnew

theorem ne_arrayValues (hw : h.Walks c source) (array : Ref) : source ≠ .arrayValues array := by
  rintro rfl
  cases hw

/-- A collection is no iterator over itself. -/
theorem ne (hw : h.Walks c source) {r : Ref} {source' : IterationSource} {cursor : Cursor}
    (hr : h.kind r = .iterator source' cursor) : c ≠ r := by
  rintro rfl
  cases hw with
  | map data hmap => cases hmap.symm.trans hr
  | set data hset => cases hset.symm.trans hr

end Heap.Walks

/-! ## The step of an iterator -/

/-- The machine with the cursor of an iterator moved. -/
def Machine.moved (m : Machine) (r : Ref) (cursor : Cursor) : Machine :=
  Run.final (Engine.moveCursor r cursor m)

theorem Machine.moved_moved (m : Machine) (r : Ref) (cursor cursor' : Cursor) :
    (m.moved r cursor).moved r cursor' = m.moved r cursor' := by
  refine congrArg m.withHeap ((Heap.modify_modify ..).trans (Heap.modify_congr ?_))
  cases hkind : (m.heap.object r).kind <;> simp [hkind]

theorem Machine.size_moved (m : Machine) (r : Ref) (cursor : Cursor) :
    (m.moved r cursor).size = m.size := Engine.size_moveCursor r cursor m

theorem Machine.object_moved {p r : Ref} (hp : p ≠ r) (m : Machine) (cursor : Cursor) :
    (m.moved r cursor).heap.object p = m.heap.object p := Engine.object_moveCursor hp cursor

/-- The cursor of an iterator is where it is said to be, and of what there was nothing else has
changed. -/
structure Machine.Stepped (m : Machine) (r : Ref) (source : IterationSource) (cursor : Cursor)
    (m' : Machine) : Prop where
  kind : m'.heap.kind r = .iterator source cursor
  others : ∀ p, p ≠ r → p.index < m.size → m'.heap.object p = m.heap.object p
  grows : m.size ≤ m'.size

theorem Machine.stepped_moved {m : Machine} {r : Ref} {source : IterationSource} {cursor : Cursor}
    (hkind : m.heap.kind r = .iterator source cursor) (cursor' : Cursor) :
    m.Stepped r source cursor' (m.moved r cursor') :=
  ⟨Engine.kind_moveCursor hkind cursor', fun _ hp _ => m.object_moved hp cursor',
    Nat.le_of_eq (m.size_moved r cursor').symm⟩

theorem Machine.Stepped.grown {m m₁ m₂ : Machine} {r : Ref} {source : IterationSource}
    {cursor : Cursor} (h : m.Stepped r source cursor m₁) (hgrown : m₁.Grown m₂) :
    m.Stepped r source cursor m₂ := by
  have hlive : r.index < m₁.size := Engine.live_of_iterator h.kind
  refine ⟨(congrArg Object.kind (hgrown.object hlive)).trans h.kind, fun p hp hold => ?_,
    Nat.le_trans h.grows hgrown.size_le⟩
  rw [hgrown.object (Nat.lt_of_lt_of_le hold h.grows)]
  exact h.others p hp hold

/-- The object that reports a step. -/
def Object.reporting (v : Value) (done : Bool) : Object :=
  { Object.new (some Intrinsic.objectPrototype.ref) .ordinary with
    properties := Engine.plainTable [("value", v), ("done", .bool done)] }

theorem newResult_apply (v : Value) (done : Bool) (m : Machine) :
    Engine.newResult v done m =
      .ok ⟨m.size⟩ (m.withHeap (m.heap.allocate (.reporting v done)).2) :=
  newPlainObject_apply _ m

/-- The result of a step reports the end, or a member: the value of a set, or a new pair of key and
value of a map. -/
def Heap.Reports (h : Heap) (result : Ref) : Option Element → Prop
  | none => h.object result = .reporting .undefined true
  | some (.value v) => h.object result = .reporting v false
  | some (.pair k v) =>
    ∃ pair, h.object result = .reporting (.object pair) false ∧ h.object pair = .listing [k, v]
  | some _ => False

/-- The member that was found, as a value. -/
def Element.given : Element → Run Value
  | .pair k v => Engine.newPair k v
  | .value v => pure v
  | _ => pure .undefined

/-- The slot that an iterator hands out next. -/
def Cursor.nextSlot? (cursor : Cursor) (members : List (Option Element)) : Option Nat :=
  cursor.position?.bind (ObjectModel.nextSlot? members)

/-- Where the next step leaves the cursor. -/
def Cursor.past (cursor : Cursor) (members : List (Option Element)) : Cursor :=
  match cursor.nextSlot? members with
  | some slot => .active (slot + 1)
  | none => .exhausted

namespace Engine

variable (eng : Engine) {m : Machine} {r c : Ref} {source : IterationSource} {cursor : Cursor}

/-- Except over a live array a position is taken without any user code. -/
theorem take_apply (hkind : m.heap.kind r = .iterator source cursor)
    (hfixed : ∀ array, source ≠ .arrayValues array) {position : Nat}
    (hposition : cursor.position? = some position) :
    eng.take r m =
      .ok (taken position (m.heap.elementAt source position))
        (m.moved r (cursorPast position (m.heap.elementAt source position))) := by
  have hinspect : eng.inspect position (m.heap.elementAt source position) =
      pure (m.heap.elementAt source position) := by
    cases helement : m.heap.elementAt source position with
    | live array => exact absurd (elementAt_live helement) (hfixed array)
    | _ => rfl
  simp only [take, look, Run.bind_apply, Run.heap, hkind, hposition, hinspect, Run.pure_apply]
  rfl

theorem deliver_member {e : Element} (he : (∃ v, e = .value v) ∨ ∃ k v, e = .pair k v)
    (slot : Nat) : eng.deliver slot e = some <$> e.given := by
  rcases he with ⟨v, rfl⟩ | ⟨k, v, rfl⟩
  · rfl
  · simp [deliver, Element.given]

/-- One round of a walk. -/
theorem handOutWithin_round (hkind : m.heap.kind r = .iterator source cursor)
    (hw : m.heap.Walks c source) {position : Nat} (hposition : cursor.position? = some position)
    (fuel : Nat) :
    eng.handOutWithin r (fuel + 1) m =
      match (m.heap.kind c).members[position]? with
      | none => .ok none (m.moved r .exhausted)
      | some none => eng.handOutWithin r fuel (m.moved r (.active (position + 1)))
      | some (some e) =>
        ((fun v => some (position, v)) <$> e.given) (m.moved r (.active (position + 1))) := by
  have htake := take_apply eng hkind hw.ne_arrayValues hposition
  rw [hw.elementAt] at htake
  rw [handOutWithin, Run.bind_ok htake]
  cases hcell : (m.heap.kind c).members[position]? with
  | none => rfl
  | some cell =>
    cases cell with
    | none => rfl
    | some e =>
      have he := hw.member_cases hcell
      have htaken : taken position e = some (position, e) ∧
          cursorPast position e = .active (position + 1) := by
        rcases he with ⟨v, rfl⟩ | ⟨k, v, rfl⟩ <;> exact ⟨rfl, rfl⟩
      dsimp only
      rw [htaken.1, htaken.2]
      dsimp only
      rw [deliver_member eng he, bind_map_left, map_eq_pure_bind]

/-- **A walk finds the next slot that is not empty.** -/
theorem handOutWithin_walks (hkind : m.heap.kind r = .iterator source cursor)
    (hw : m.heap.Walks c source) {position fuel : Nat}
    (hposition : cursor.position? = some position)
    (hfuel : (m.heap.kind c).members.length ≤ position + fuel) :
    (nextSlot? (m.heap.kind c).members position = none ∧
      eng.handOutWithin r (fuel + 1) m = .ok none (m.moved r .exhausted)) ∨
    ∃ slot e, nextSlot? (m.heap.kind c).members position = some slot ∧
      (m.heap.kind c).members[slot]? = some (some e) ∧
      eng.handOutWithin r (fuel + 1) m =
        ((fun v => some (slot, v)) <$> e.given) (m.moved r (.active (slot + 1))) := by
  induction fuel generalizing m cursor position with
  | zero =>
    rw [handOutWithin_round eng hkind hw hposition]
    have hend : (m.heap.kind c).members[position]? = none :=
      List.getElem?_eq_none_iff.2 hfuel
    rw [hend]
    exact .inl ⟨nextSlot?_finished hend, rfl⟩
  | succ fuel ih =>
    rw [handOutWithin_round eng hkind hw hposition]
    cases hcell : (m.heap.kind c).members[position]? with
    | none => exact .inl ⟨nextSlot?_finished hcell, rfl⟩
    | some cell =>
      cases cell with
      | some e => exact .inr ⟨position, e, nextSlot?_member hcell, hcell, rfl⟩
      | none =>
        let m₁ := m.moved r (.active (position + 1))
        have hkind₁ : m₁.heap.kind r = .iterator source (.active (position + 1)) :=
          kind_moveCursor hkind _
        have hsame : m₁.heap.kind c = m.heap.kind c :=
          congrArg Object.kind (Machine.object_moved (hw.ne hkind) m _)
        have hrest := ih hkind₁ (hw.congr hsame) rfl (by rw [hsame]; omega)
        rw [hsame] at hrest
        simp only [m₁, Machine.moved_moved] at hrest
        rwa [nextSlot?_hole hcell]

/-- The result for what was handed out is a new object. -/
theorem resultFor_apply (found : Option (Nat × Value)) (m : Machine) :
    ∃ m', resultFor found m = .ok ⟨m.size⟩ m' ∧ m.Grown m' ∧
      m'.heap.object ⟨m.size⟩ =
        .reporting (found.elim .undefined Prod.snd) found.isNone := by
  cases found with
  | none => exact ⟨_, newResult_apply .undefined true m, .allocate .., Heap.object_allocate_self ..⟩
  | some found =>
    exact ⟨_, newResult_apply found.2 false m, .allocate .., Heap.object_allocate_self ..⟩

/-- A member is reported as it stands. -/
theorem given_reports {e : Element} (he : (∃ v, e = .value v) ∨ ∃ k v, e = .pair k v)
    (slot : Nat) (m : Machine) :
    ∃ result m', (((fun v => some (slot, v)) <$> e.given) >>= resultFor) m = .ok result m' ∧
      m.Grown m' ∧ m'.heap.Reports result (some e) := by
  rcases he with ⟨v, rfl⟩ | ⟨k, v, rfl⟩
  · obtain ⟨m', hresult, hgrown, hobject⟩ := resultFor_apply (some (slot, v)) m
    exact ⟨_, m', hresult, hgrown, hobject⟩
  · let m₁ := m.withHeap (m.heap.allocate (.listing [k, v])).2
    have hgrown₁ : m.Grown m₁ := .allocate m _
    obtain ⟨m', hresult, hgrown, hobject⟩ :=
      resultFor_apply (some (slot, .object ⟨m.size⟩)) m₁
    have hlive : m.size < m₁.size := by
      show m.size < (m.heap.allocate _).2.objects.size
      rw [Heap.size_allocate]
      exact Nat.lt_succ_self _
    have hpair : m₁.heap.object ⟨m.size⟩ = .listing [k, v] := m.heap.object_allocate_self _
    have hrun : (((fun v => some (slot, v)) <$> (Element.pair k v).given) >>= resultFor) m =
        .ok ⟨m₁.size⟩ m' := by
      rw [map_eq_pure_bind, bind_assoc]
      exact (Run.bind_ok (newPair_apply k v m)).trans hresult
    exact ⟨_, m', hrun, hgrown₁.trans hgrown, ⟨m.size⟩, hobject,
      (hgrown.object (r := ⟨m.size⟩) hlive).trans hpair⟩

/-- **Every step of an iterator over a collection ends.**  It hands out the member in the next slot
that is not empty, or reports the end, and moves only its own cursor. -/
theorem advance_walks (hkind : m.heap.kind r = .iterator source cursor)
    (hw : m.heap.Walks c source) :
    ∃ result m', eng.advance r m = .ok result m' ∧
      m.Stepped r source (cursor.past (m.heap.kind c).members) m' ∧
      m'.heap.Reports result ((cursor.nextSlot? (m.heap.kind c).members).bind fun slot =>
        (m.heap.kind c).members[slot]?.join) := by
  have hadvance : eng.advance r m =
      (eng.handOutWithin r ((m.heap.kind c).members.length + 1) >>= resultFor) m := by
    simp only [advance_eq, handOut, Run.bind_apply, Run.heap, hkind, hw.skippable]
  have hend {m₁ : Machine} (hmoved : m.Stepped r source .exhausted m₁)
      (hnext : cursor.nextSlot? (m.heap.kind c).members = none)
      (hout : eng.handOutWithin r ((m.heap.kind c).members.length + 1) m = .ok none m₁) :
      ∃ result m', eng.advance r m = .ok result m' ∧
        m.Stepped r source (cursor.past (m.heap.kind c).members) m' ∧
        m'.heap.Reports result ((cursor.nextSlot? (m.heap.kind c).members).bind fun slot =>
          (m.heap.kind c).members[slot]?.join) := by
    obtain ⟨m', hresult, hgrown, hobject⟩ := resultFor_apply none m₁
    rw [hadvance, Run.bind_ok hout, Cursor.past, hnext]
    exact ⟨_, m', hresult, hmoved.grown hgrown, hobject⟩
  cases hposition : cursor.position? with
  | none =>
    obtain rfl := eq_exhausted hposition
    refine hend ⟨hkind, fun _ _ _ => rfl, Nat.le_refl _⟩ rfl ?_
    simp only [handOutWithin, take, look, pass, Run.bind_apply, Run.heap, hkind, hposition,
      Run.pure_apply]
  | some position =>
    rcases handOutWithin_walks eng hkind hw hposition (Nat.le_add_left _ position) with
      ⟨hnext, hout⟩ | ⟨slot, e, hnext, he, hout⟩
    · refine hend (m.stepped_moved hkind .exhausted) ?_ hout
      rw [Cursor.nextSlot?, hposition]
      exact hnext
    · have hnext : cursor.nextSlot? (m.heap.kind c).members = some slot := by
        rw [Cursor.nextSlot?, hposition]
        exact hnext
      obtain ⟨result, m', hgiven, hgrown, hreports⟩ :=
        given_reports (hw.member_cases he) slot (m.moved r (.active (slot + 1)))
      have hrun : eng.advance r m = .ok result m' := by
        rw [hadvance, Run.bind_apply, hout, ← Run.bind_apply]
        exact hgiven
      refine ⟨result, m', hrun, ?_, ?_⟩
      · rw [Cursor.past, hnext]
        exact (m.stepped_moved hkind _).grown hgrown
      · rw [hnext, Option.bind_some, he]
        exact hreports

end Engine

end ObjectModel
