import ObjectModel.Proofs.Discipline

/-!
# The step of an iterator, taken apart

A step takes positions until one gives a value.  To take a position is to look at what stands
there and to move the cursor past it, and only a live array runs user code in between, when its
length is read; what is taken is delivered afterwards.  `handOut` is the step that also tells the
position of the value, and `advance_eq` says that it is the step.
-/

namespace ObjectModel.Engine

variable (eng : Engine)

/-- What stands at a position, as user code leaves it: a live array may end before it. -/
def inspect (position : Nat) : Element → Run Element
  | .live array => do
    let length ← eng.lengthOfArrayLike array
    pure (if length ≤ position then .finished else .live array)
  | element => pure element

/-- The position that an iterator has come to and what stands there; nothing if it is exhausted. -/
def look (iterator : Ref) : Run (Option (Nat × Element)) := do
  let heap ← Run.heap
  match heap.kind iterator with
  | .iterator source cursor =>
    match cursor.position? with
    | none => pure none
    | some position => return some (position, ← eng.inspect position (heap.elementAt source position))
  | _ => Run.fail (.receiver .hostNext)

/-- Where the cursor goes from a position. -/
def cursorPast (position : Nat) : Element → Cursor
  | .finished => .exhausted
  | _ => .active (position + 1)

/-- What a position has to give; at the end there is none. -/
def taken (position : Nat) : Element → Option (Nat × Element)
  | .finished => none
  | element => some (position, element)

/-- Moves an iterator past what was seen. -/
def pass (iterator : Ref) : Option (Nat × Element) → Run (Option (Nat × Element))
  | none => pure none
  | some (position, element) => do
    moveCursor iterator (cursorPast position element)
    pure (taken position element)

/-- Takes the next position of an iterator. -/
def take (iterator : Ref) : Run (Option (Nat × Element)) := eng.look iterator >>= pass iterator

/-- The value of what was taken; a hole or a deleted key has none. -/
def deliver (position : Nat) : Element → Run (Option Value)
  | .finished | .hole => pure none
  | .value v => pure (some v)
  | .live array => return some (← eng.get array (.ofPosition position))
  | .arrayEntry array => do
    let v ← eng.get array (.ofPosition position)
    return some (← newPair (.ofNat position) v)
  | .ownKey object key entry => do
    if !(← eng.hasOwnProperty object key) then pure none
    else if entry then
      let v ← eng.get object key
      return some (← newPair key.toValue v)
    else pure (some key.toValue)
  | .pair k v => return some (← newPair k v)

/-- Takes positions, at most `fuel`, until one gives a value. -/
def handOutWithin (iterator : Ref) : Nat → Run (Option (Nat × Value))
  | 0 => Run.outOfFuel
  | fuel + 1 => do
    match ← eng.take iterator with
    | none => pure none
    | some (position, element) =>
      match ← eng.deliver position element with
      | none => handOutWithin iterator fuel
      | some v => pure (some (position, v))

/-- The next value of a host iterator with its position; nothing at the end. -/
def handOut (iterator : Ref) : Run (Option (Nat × Value)) := do
  let heap ← Run.heap
  match heap.kind iterator with
  | .iterator source _ => eng.handOutWithin iterator (heap.skippable source + 1)
  | _ => Run.fail (.receiver .hostNext)

/-- The result object for what was handed out. -/
def resultFor : Option (Nat × Value) → Run Ref
  | none => newResult .undefined true
  | some (_, v) => newResult v false

/-! ## Moving the cursor -/

/-- Moving the cursor of what is no iterator changes nothing. -/
theorem moveCursor_apply (iterator : Ref) (cursor : Cursor) (m : Machine) :
    moveCursor iterator cursor m =
      match m.heap.kind iterator with
      | .iterator source _ =>
        .ok () (m.withHeap (m.heap.modify iterator fun o =>
          { o with kind := .iterator source cursor }))
      | _ => .ok () m := by
  have hmoved {g : Object → Object} (hg : (match (m.heap.object iterator).kind with
      | .iterator source _ => { m.heap.object iterator with kind := .iterator source cursor }
      | _ => m.heap.object iterator) = g (m.heap.object iterator)) :
      moveCursor iterator cursor m = .ok () (m.withHeap (m.heap.modify iterator g)) :=
    congrArg (fun h => EStateM.Result.ok () (m.withHeap h)) (Heap.modify_congr hg)
  cases hk : m.heap.kind iterator with
  | iterator source c => exact hmoved (by rw [show (m.heap.object iterator).kind = _ from hk])
  | _ =>
    rw [hmoved (g := fun o => o) (by rw [show (m.heap.object iterator).kind = _ from hk]),
      Heap.modify_id]
    rfl

theorem size_moveCursor (iterator : Ref) (cursor : Cursor) (m : Machine) :
    (Run.final (moveCursor iterator cursor m)).size = m.size := Heap.size_modify ..

theorem live_of_iterator {m : Machine} {r : Ref} {source : IterationSource} {c : Cursor}
    (hkind : m.heap.kind r = .iterator source c) : r.index < m.size :=
  Heap.live_of_kind (by simp [hkind])

theorem kind_moveCursor {m : Machine} {r : Ref} {source : IterationSource} {c : Cursor}
    (hkind : m.heap.kind r = .iterator source c) (c' : Cursor) :
    (Run.final (moveCursor r c' m)).heap.kind r = .iterator source c' := by
  have hlive : r.index < m.heap.objects.size := live_of_iterator hkind
  rw [moveCursor_apply, hkind]
  show ((m.heap.modify r _).object r).kind = _
  rw [Heap.object_modify, if_pos ⟨rfl, hlive⟩]

theorem object_moveCursor {m : Machine} {p r : Ref} (hp : p ≠ r) (c : Cursor) :
    (Run.final (moveCursor r c m)).heap.object p = m.heap.object p := by
  show (m.heap.modify r _).object p = _
  rw [Heap.object_modify, if_neg fun h => hp h.1]

/-! ## Looking -/

/-- Only the elements of a live array are live. -/
theorem elementAt_live {h : Heap} {source : IterationSource}
    {position : Nat} {array : Ref} (helement : h.elementAt source position = .live array) :
    source = .arrayValues array := by
  unfold Heap.elementAt at helement
  cases source with
  | arrayValues a =>
    cases helement
    rfl
  | _ =>
    dsimp only [Option.elim] at helement
    repeat' split at helement
    all_goals cases helement

/-- What is seen stands at the iterator's own position.  The machine has changed only if the length
of a live array was read. -/
theorem look_cases {iterator : Ref} {m m' : Machine} {found : Option (Nat × Element)}
    (h : eng.look iterator m = .ok found m') :
    ∃ source c, m.heap.kind iterator = .iterator source c ∧
      found.map Prod.fst = c.position? ∧
        (m' = m ∨ ∃ array length, source = .arrayValues array ∧
          eng.lengthOfArrayLike array m = .ok length m') := by
  simp only [look, Run.bind_apply, Run.heap] at h
  cases hkind : m.heap.kind iterator with
  | iterator source c =>
    rw [hkind] at h
    dsimp only at h
    refine ⟨source, c, rfl, ?_⟩
    cases hposition : c.position? with
    | none =>
      rw [hposition] at h
      cases h
      exact ⟨rfl, .inl rfl⟩
    | some position =>
      rw [hposition] at h
      dsimp only at h
      cases helement : m.heap.elementAt source position with
      | live array =>
        rw [helement, Run.bind_apply] at h
        simp only [inspect, Run.bind_apply] at h
        cases hlength : eng.lengthOfArrayLike array m with
        | error e m₁ =>
          rw [hlength] at h
          cases h
        | ok length m₁ =>
          rw [hlength] at h
          cases h
          exact ⟨rfl, .inr ⟨array, length, elementAt_live helement, hlength⟩⟩
      | _ =>
        rw [helement] at h
        cases h
        exact ⟨rfl, .inl rfl⟩
  | _ =>
    rw [hkind] at h
    cases h

/-- At a live array looking is reading the length. -/
theorem look_live {iterator array : Ref} {c : Cursor} {position : Nat} {m : Machine}
    (hkind : m.heap.kind iterator = .iterator (.arrayValues array) c)
    (hposition : c.position? = some position) :
    eng.look iterator m =
      match eng.lengthOfArrayLike array m with
      | .ok length m' =>
        .ok (some (position, if length ≤ position then .finished else .live array)) m'
      | .error e m' => .error e m' := by
  simp only [look, Run.bind_apply, Run.heap, hkind, hposition, Heap.elementAt, inspect]
  cases eng.lengthOfArrayLike array m <;> rfl

/-- Looking asks the engine for nothing but the length of a live array. -/
theorem look_congr {eng eng' : Engine} {iterator : Ref} {source : IterationSource} {c : Cursor}
    {m : Machine} (hkind : m.heap.kind iterator = .iterator source c)
    (h : ∀ array, source = .arrayValues array →
      eng.lengthOfArrayLike array m = eng'.lengthOfArrayLike array m) :
    eng.look iterator m = eng'.look iterator m := by
  simp only [look, Run.bind_apply, Run.heap, hkind]
  cases c.position? with
  | none => rfl
  | some position =>
    dsimp only
    cases helement : m.heap.elementAt source position with
    | live array => simp only [inspect, Run.bind_apply, h array (elementAt_live helement)]
    | _ => rfl

theorem Prompt.lengthOfArrayLike {eng : Engine} (h : eng.Prompt) {array : Ref} {m : Machine}
    (harray : (m.heap.object array).isArray = true) :
    Run.final (eng.lengthOfArrayLike array m) = m := by
  rw [Engine.lengthOfArrayLike, Run.bind_apply]
  rcases h array m harray with ⟨length, hget⟩ | ⟨e, hget⟩
  · rw [hget]
    rfl
  · rw [hget]
    rfl

/-- Only an exhausted iterator is at no position. -/
theorem eq_exhausted {c : Cursor} (h : c.position? = none) : c = .exhausted := by
  cases c with
  | exhausted => rfl
  | _ => cases h

/-- Past a position the cursor has moved on. -/
theorem le_cursorPast {c : Cursor} {position : Nat} (h : c.position? = some position)
    (element : Element) : c ≤ cursorPast position element := by
  cases element with
  | finished => exact c.le_exhausted
  | _ => exact Cursor.le_active_succ h

theorem pass_some (iterator : Ref) (position : Nat) (element : Element) (m : Machine) :
    pass iterator (some (position, element)) m =
      .ok (taken position element)
        (Run.final (moveCursor iterator (cursorPast position element) m)) := rfl

/-! ## The parts make up the step -/

/-- What a position gives, in the words of the step. -/
def outcomeOf : Option Value → Outcome
  | none => .skipped
  | some v => .value v

theorem deliver_ownKey (position : Nat) (object : Ref) (key : Key) (entry : Bool) :
    (do return outcomeOf (← eng.deliver position (.ownKey object key entry))) =
      (do
        if !(← eng.hasOwnProperty object key) then pure .skipped
        else if entry then
          let v ← eng.get object key
          return .value (← newPair key.toValue v)
        else pure (.value key.toValue) : Run Outcome) := by
  simp only [deliver, bind_assoc]
  refine bind_congr fun found => ?_
  cases found with
  | false => rfl
  | true =>
    cases entry with
    | false => rfl
    | true => simp [outcomeOf]

/-- An element is inspected, passed and delivered. -/
theorem readElement_eq (iterator : Ref) (position : Nat) (element : Element) :
    eng.readElement iterator position element =
      (do
        let element ← eng.inspect position element
        match ← pass iterator (some (position, element)) with
        | none => pure .finished
        | some (position, element) => return outcomeOf (← eng.deliver position element)) := by
  cases element with
  | live array =>
    simp only [readElement, inspect, bind_assoc, pure_bind]
    refine bind_congr fun length => ?_
    by_cases h : length ≤ position
    · rw [if_pos h, if_pos h]
      rfl
    · rw [if_neg h, if_neg h]
      simp only [pass, taken, cursorPast, bind_assoc, pure_bind, deliver, outcomeOf]
  | ownKey object key entry =>
    simp only [readElement, inspect, pass, taken, cursorPast, bind_assoc, pure_bind]
    rw [deliver_ownKey]
  | _ =>
    simp only [readElement, inspect, pass, taken, cursorPast, bind_assoc, pure_bind, deliver,
      outcomeOf]

theorem advanceWithin_eq (iterator : Ref) (fuel : Nat) :
    eng.advanceWithin iterator fuel = eng.handOutWithin iterator fuel >>= resultFor := by
  induction fuel with
  | zero => rfl
  | succ fuel ih =>
    simp only [advanceWithin, handOutWithin, take, look, bind_assoc]
    refine bind_congr fun heap => ?_
    cases heap.kind iterator with
    | iterator source cursor =>
      dsimp only
      cases cursor.position? with
      | none => rfl
      | some position =>
        simp only [readElement_eq, bind_assoc, pure_bind]
        refine bind_congr fun element => bind_congr fun found => ?_
        cases found with
        | none => rfl
        | some found =>
          obtain ⟨position, element⟩ := found
          simp only [bind_assoc, pure_bind]
          refine bind_congr fun v => ?_
          cases v with
          | none => exact ih
          | some v => rfl
    | _ => rfl

/-- **A step gives the result for what is handed out.** -/
theorem advance_eq (iterator : Ref) :
    eng.advance iterator = eng.handOut iterator >>= resultFor := by
  simp only [advance, handOut, bind_assoc]
  refine bind_congr fun heap => ?_
  cases heap.kind iterator with
  | iterator source cursor => exact eng.advanceWithin_eq iterator _
  | _ => rfl

end ObjectModel.Engine
