import ObjectModel.Proofs.Coherence
import ObjectModel.Proofs.Lineage
import ObjectModel.Proofs.PropertyNames
import ObjectModel.Proofs.SharedIteration

/-!
# The keys of positions

Lengths go up to `2 ^ 53 - 1`, and the two walks over the positions below a length that do not limit
it, the source text of an array and the iterator over its values, count positions in 32 bits.  Below
`2 ^ 32 - 1` the key of a position is the one of its decimal form (`Key.ofPosition_eq_iff`).  From
there on it is another: `2 ^ 32 - 1` becomes an index that no text is, and after it the positions
start again at zero (`positions_start_again`).
-/

namespace ObjectModel

/-! ## Keys -/

namespace Key

/-- The key of a decimal form is an index below the limit, and a name from there on. -/
theorem ofText_ofNat (i : Nat) :
    ofText (Text.ofNat i) = if i < indexLimit then .index i else .name (Text.ofNat i) := by
  unfold ofText
  split
  · next n hn =>
    obtain ⟨heq, hlt⟩ := Text.arrayIndex?_eq_some_iff.1 hn
    rw [Text.ofNat_inj heq, if_pos hlt]
  · next hnone =>
    rw [if_neg]
    intro hlt
    rw [Text.arrayIndex?_ofNat hlt] at hnone
    cases hnone

theorem ofText_ofNat_ne_length (i : Nat) : ofText (Text.ofNat i) ≠ .length := by
  intro heq
  have htext : Text.ofNat i = Text.ofString "length" := by
    rw [← spelling_ofText (Text.ofNat i), heq]
    rfl
  have hdigits := Text.all_isDigit_ofNat i
  rw [htext] at hdigits
  revert hdigits
  decide

/-- **A position has the key of its decimal form exactly below the limit of indexes.** -/
theorem ofPosition_eq_iff {i : Nat} :
    ofPosition i = ofText (Text.ofNat i) ↔ i < indexLimit := by
  rw [ofText_ofNat, ofPosition]
  split
  · next hlt =>
    have hword : i < Number.maxWord + 1 := Nat.lt_succ_of_lt hlt
    exact iff_of_true (by rw [Nat.mod_eq_of_lt hword]) hlt
  · next hge => exact iff_of_false (fun heq => by cases heq) hge

/-- The limit is the index of no text. -/
theorem ofText_ne_limit (t : Text) : ofText t ≠ .index indexLimit := by
  unfold ofText
  split
  · next n hn =>
    intro heq
    cases heq
    exact Nat.lt_irrefl _ (Text.arrayIndex?_eq_some_iff.1 hn).2
  · exact fun heq => by cases heq

/-- The key of a position is the limit or that of the position counted in 32 bits. -/
theorem ofPosition_cases (i : Nat) :
    i % 2 ^ 32 = indexLimit ∧ ofPosition i = .index indexLimit ∨
      i % 2 ^ 32 < indexLimit ∧ ofPosition i = ofText (Text.ofNat (i % 2 ^ 32)) := by
  have hle : i % 2 ^ 32 ≤ indexLimit := Nat.le_of_lt_succ (Nat.mod_lt i (by decide))
  have hposition : ofPosition i = .index (i % 2 ^ 32) := rfl
  rcases Nat.lt_or_eq_of_le hle with hlt | heq
  · exact .inr ⟨hlt, by rw [ofText_ofNat, if_pos hlt, hposition]⟩
  · exact .inl ⟨heq, by rw [hposition, heq]⟩

end Key

/-! ## The two walks -/

namespace Engine

variable (eng : Engine)

/-- The source of what an object has under keys, piece by piece; a hole is a comma. -/
def sourcesUnder (o : Ref) : List Key → Run (List Text)
  | [] => pure []
  | key :: rest => do
    let item ←
      if ← eng.hasOwnProperty o key then
        let element ← eng.uneval (← eng.get o key)
        pure (if rest.isEmpty then [element] else [element, ", "])
      else pure [if rest.isEmpty then "," else ", "]
    return item ++ (← sourcesUnder o rest)

/-- The source of elements reads the keys of their positions. -/
theorem elementSources_eq (o : Ref) (count start : Nat) :
    eng.elementSources o count start =
      eng.sourcesUnder o ((List.range' start count).map Key.ofPosition) := by
  induction count generalizing start with
  | zero => rfl
  | succ count ih =>
    have hempty : ((List.range' (start + 1) count).map Key.ofPosition).isEmpty =
        decide (count = 0) := by
      cases count <;> rfl
    rw [elementSources, ih, List.range'_succ, List.map_cons, sourcesUnder, hempty]
    simp only [decide_eq_true_eq]

/-- **A step over a live array reads its length, and then the key of the position.** -/
theorem advance_arrayValues {it a : Ref} {c : Cursor} {i length : Nat} {m m₁ : Machine}
    (hkind : m.heap.kind it = .iterator (.arrayValues a) c) (hi : c.position? = some i)
    (hlength : eng.lengthOfArrayLike a m = .ok length m₁) :
    eng.advance it m =
      if i < length then
        (eng.get a (.ofPosition i) >>= fun v => newResult v false) (m₁.moved it (.active (i + 1)))
      else newResult .undefined true (m₁.moved it .exhausted) := by
  have hmove (c' : Cursor) : moveCursor it c' m₁ = .ok () (m₁.moved it c') := rfl
  have hread : eng.readElement it i (.live a) m =
      if i < length then
        (eng.get a (.ofPosition i) >>= fun v => pure (.value v)) (m₁.moved it (.active (i + 1)))
      else .ok .finished (m₁.moved it .exhausted) := by
    rw [readElement, Run.bind_ok hlength]
    by_cases hlt : i < length
    · rw [if_pos hlt, if_neg (Nat.not_le.2 hlt), Run.bind_ok (hmove _)]
    · rw [if_neg hlt, if_pos (Nat.not_lt.1 hlt), Run.bind_ok (hmove _)]
      rfl
  have hheap : Run.heap m = .ok m.heap m := rfl
  rw [advance, Run.bind_ok hheap]
  simp only [hkind]
  rw [advanceWithin, Run.bind_ok hheap]
  simp only [hkind, hi, Heap.elementAt]
  rw [Run.bind_apply, hread]
  by_cases hlt : i < length
  · simp only [if_pos hlt, Run.bind_apply]
    cases eng.get a (.ofPosition i) (m₁.moved it (.active (i + 1))) <;> rfl
  · simp only [if_neg hlt]

end Engine

/-! ## An iterator far into an object -/

/-- The object inherits nothing and has the greatest length, and besides it one property with the
value "x". -/
structure Object.Sparse (o : Object) (k : Key) : Prop where
  proxy : o.isProxy = false
  prototype : o.prototype = none
  length : ∃ d, o.ownDescriptor .length = some d ∧ d.value = some (.ofNat Engine.lengthLimit)
  own : ∃ d, o.ownDescriptor k = some d ∧ d.value = some (.text "x")
  others : ∀ k', k' ≠ k → k' ≠ .length → o.ownDescriptor k' = none

/-- A history has come to an iterator over the values of such an object, at a position. -/
structure Machine.IteratesSparse (m : Machine) (a it : Ref) (k : Key) (i : Nat) : Prop where
  attained : m.Attained
  sparse : (m.heap.object a).Sparse k
  live : a.index < m.size
  ne : a ≠ it
  iterator : ∃ c, m.heap.kind it = .iterator (.arrayValues a) c ∧ c.position? = some i

/-- A step of an iterator belongs to the history. -/
theorem Machine.Attained.advance {m m' : Machine} (hm : m.Attained) {it result : Ref}
    (hit : it.index < m.size) {n : Nat} (hrun : (engine (n + 1)).advance it m = .ok result m') :
    m'.Attained := by
  have hoperate : (engine (n + 1)).operate
      ((engine (n + 1)).operandsOf none [.value (.object it)]) (.iterate (.advance 0)) m =
      .ok (.value (.object result)) m' := Run.bind_ok hrun
  exact hm.of_before (.single (.operated hm hit hoperate))

namespace Object.Sparse

variable {m : Machine} {a : Ref} {k : Key} (h : (m.heap.object a).Sparse k) (n : Nat)

include h

theorem lengthOfArrayLike :
    (engine (n + 2)).lengthOfArrayLike a m = .ok Engine.lengthLimit m := by
  obtain ⟨d, hd, hv⟩ := h.length
  have hget : (engine (n + 2)).get a .length m = .ok (.ofNat Engine.lengthLimit) m :=
    engine_getFor_data h.proxy hd hv
  rw [Engine.lengthOfArrayLike, Run.bind_ok hget]
  exact Engine.toLength_ofNat _ (Nat.le_refl _) m

/-- What the object has under the key of a position. -/
theorem get (i : Nat) :
    (engine (n + 2)).get a (.ofPosition i) m =
      .ok (if Key.ofPosition i = k then .text "x" else .undefined) m := by
  by_cases heq : Key.ofPosition i = k
  · obtain ⟨d, hd, hv⟩ := h.own
    rw [if_pos heq, heq]
    exact engine_getFor_data h.proxy hd hv
  · rw [if_neg heq]
    exact engine_getFor_missing h.proxy (h.others _ heq fun hlength => by cases hlength) h.prototype

end Object.Sparse

namespace Machine.IteratesSparse

variable {m : Machine} {a it : Ref} {k : Key} {i : Nat}

/-- **A step gives what the object has under the key of the position, and goes on.** -/
theorem advance (h : m.IteratesSparse a it k i) (hi : i < Engine.lengthLimit) (n : Nat) :
    ∃ result m', (engine (n + 2)).advance it m = .ok result m' ∧ m'.IteratesSparse a it k (i + 1) ∧
      m'.heap.object result =
        .reporting (if Key.ofPosition i = k then .text "x" else .undefined) false := by
  obtain ⟨c, hkind, hposition⟩ := h.iterator
  have hobject := m.object_moved h.ne (.active (i + 1))
  have hget := Object.Sparse.get (hobject ▸ h.sparse) n i
  obtain ⟨m', hresult, hgrown, hreports⟩ := Engine.resultFor_apply
    (some (i, if Key.ofPosition i = k then .text "x" else .undefined))
    (m.moved it (.active (i + 1)))
  have hstepped := (Machine.stepped_moved hkind (.active (i + 1))).grown hgrown
  have hrun : (engine (n + 2)).advance it m = .ok ⟨(m.moved it (.active (i + 1))).size⟩ m' := by
    rw [Engine.advance_arrayValues _ hkind hposition (h.sparse.lengthOfArrayLike n), if_pos hi,
      Run.bind_ok hget]
    exact hresult
  have hsame : m'.heap.object a = m.heap.object a := hstepped.others a h.ne h.live
  exact ⟨_, m', hrun, ⟨h.attained.advance (Engine.live_of_iterator hkind) hrun,
    hsame ▸ h.sparse, Nat.lt_of_lt_of_le h.live hstepped.grows, h.ne, _, hstepped.kind, rfl⟩,
    hreports⟩

/-- **Every position below the length is reached.** -/
theorem reaches (h : m.IteratesSparse a it k 0) (hi : i ≤ Engine.lengthLimit) :
    ∃ m' : Machine, m'.IteratesSparse a it k i := by
  induction i with
  | zero => exact ⟨m, h⟩
  | succ i ih =>
    obtain ⟨m₁, h₁⟩ := ih (Nat.le_of_succ_le hi)
    obtain ⟨_, m', -, h', -⟩ := h₁.advance hi 0
    exact ⟨m', h'⟩

end Machine.IteratesSparse

/-- The value is put on an object with nothing but the greatest length. -/
theorem Object.exists_sparse {o : Object} {k : Key} (ho : o.Ordinary)
    (hextensible : o.extensible = true) (hprototype : o.prototype = none)
    (hlength : o.ownDescriptor .length = some (.plain (.ofNat Engine.lengthLimit)))
    (hothers : ∀ k', k' ≠ .length → o.ownDescriptor k' = none) (hk : k ≠ .length) :
    ∃ o', o.define? k (.plain (.text "x")) = some o' ∧ o'.Sparse k := by
  have habsent : o.properties.find? k = none := by
    have hnone := hothers k hk
    rwa [ho.ownDescriptor, Option.map_eq_none_iff] at hnone
  have hrevise : Property.revise o.extensible (o.properties.find? k) (.plain (.text "x")) =
      some (.ofDescriptor (.plain (.text "x"))) := by
    rw [habsent, hextensible]
    rfl
  have hdefine : ∃ o', o.define? k (.plain (.text "x")) = some o' := by
    rw [define?, hrevise]
    exact ⟨_, rfl⟩
  obtain ⟨o', hdefine⟩ := hdefine
  have hown (k' : Key) := ho.ownDescriptor_define? hdefine k'
  refine ⟨o', hdefine, (ho.of_kind (kind_define? hdefine)).1,
    (prototype_define? hdefine).trans hprototype,
    ⟨_, (hown _).trans ((if_neg hk.symm).trans hlength), rfl⟩,
    ⟨_, (hown k).trans ((if_pos rfl).trans (congrArg _ hrevise)), rfl⟩, fun k' hne hne' => ?_⟩
  rw [hown, if_neg hne, hothers k' hne']

/-- An object without a prototype and with the greatest length, and an iterator over it. -/
def Expr.greatestLength : Expr :=
  .operation (.control (.sequence [0, 1]))
    [.operation (.create (.object (some 0) [(1, 2)]))
        [.value .null, .value (.text "length"), .value (.ofNat Engine.lengthLimit)] (some "a"),
      .operation (.iterate (.iterator (.arrayValues 0))) [.name "a"] none]
    none

def Machine.greatestLength : Machine :=
  Run.final ((engine 9).answer (.evaluate none .greatestLength)
    (Session.initialMachine ⟨true, false⟩))

theorem Machine.attained_greatestLength : Machine.greatestLength.Attained := by
  refine .evaluate 9 (fun r => ?_) (.initial _)
  simp [Expr.greatestLength, Value.ofNat]

/-- The object has a value under the key. -/
def Machine.sparseAt (k : Key) : Machine :=
  Run.final ((engine 1).answer (.defineOwnProperty ⟨46⟩ k (.plain (.text "x")))
    Machine.greatestLength)

theorem Machine.iteratesSparse_sparseAt {k : Key} (hk : k ≠ .length) :
    (Machine.sparseAt k).IteratesSparse ⟨46⟩ ⟨47⟩ k 0 := by
  have hdecided : Machine.greatestLength.heap.objects.size = 48 ∧
      (Machine.greatestLength.heap.object ⟨46⟩).isProxy = false ∧
      (Machine.greatestLength.heap.object ⟨46⟩).isArray = false ∧
      (Machine.greatestLength.heap.object ⟨46⟩).extensible = true ∧
      (Machine.greatestLength.heap.object ⟨46⟩).prototype = none ∧
      (Machine.greatestLength.heap.object ⟨46⟩).ownKeys = [.length] ∧
      (Machine.greatestLength.heap.object ⟨46⟩).ownDescriptor .length =
        some (.plain (.ofNat Engine.lengthLimit)) ∧
      (Machine.greatestLength.heap.kind ⟨47⟩).iteration? =
        some (.arrayValues ⟨46⟩, .fresh) := by decide +kernel
  have hm := Machine.attained_greatestLength
  unfold sparseAt
  -- from here on the machine is not evaluated any more
  generalize Machine.greatestLength = m at *
  obtain ⟨hsize, hproxy, harray, hextensible, hprototype, hkeys, hlength, hiteration⟩ := hdecided
  have hordinary : (m.heap.object ⟨46⟩).Ordinary := ⟨hproxy, harray⟩
  have hnone {k' : Key} (hk' : k' ≠ .length) : (m.heap.object ⟨46⟩).ownDescriptor k' = none := by
    rw [← Option.isNone_iff_eq_none, ← Option.not_isSome, Bool.not_eq_true',
      ← Bool.not_eq_true, ← Object.mem_ownKeys, hkeys, List.mem_singleton]
    exact hk'
  obtain ⟨o', hdefine, hsparse⟩ := Object.exists_sparse hordinary hextensible hprototype hlength
    (fun k' => hnone) hk
  have hlive : 46 < m.heap.objects.size := by omega
  have hrun : (engine 1).answer (.defineOwnProperty ⟨46⟩ k (.plain (.text "x"))) m =
      .ok true (m.withHeap (m.heap.modify ⟨46⟩ fun _ => o')) := by
    refine ((hostedEngine_none 1).symm ▸ hosted_defineOwnProperty hordinary _).trans ?_
    rw [Engine.reviseObject_apply, hdefine]
  have hattained : (m.withHeap (m.heap.modify ⟨46⟩ fun _ => o')).Attained := by
    have hanswer := Machine.Attained.answer 1 (.defineOwnProperty ⟨46⟩ k (.plain (.text "x")))
      (fun r hr => ?_) hm
    · rwa [hrun] at hanswer
    · rcases hr with rfl | ⟨_, hvalue, hr⟩ | ⟨_, hget, -⟩ | ⟨_, hset, -⟩
      · exact hlive
      · cases hvalue
        cases hr
      · cases hget
      · cases hset
  have hobject (r : Ref) : (m.heap.modify ⟨46⟩ fun _ => o').object r =
      if r = ⟨46⟩ then o' else m.heap.object r := by
    rw [Heap.object_modify]
    simp only [hlive, and_true]
  rw [hrun]
  refine ⟨hattained, ?_, ?_, by decide, .fresh, ?_, rfl⟩
  · show ((m.heap.modify ⟨46⟩ fun _ => o').object ⟨46⟩).Sparse k
    rw [hobject, if_pos rfl]
    exact hsparse
  · show 46 < (m.heap.modify ⟨46⟩ fun _ => o').objects.size
    rwa [Heap.size_modify]
  · show ((m.heap.modify ⟨46⟩ fun _ => o').object ⟨47⟩).kind = _
    rw [hobject, if_neg (by decide)]
    exact Kind.eq_of_iteration? hiteration

/-! ## Positions and what is read for them -/

/-- **Both walks read the key of a position counted in 32 bits.**  The source text of an array is
that of what it has under the keys of the positions below its length, and a step of an iterator over
its values reads the key of its position.  This is the key of the decimal form of the position
exactly below `2 ^ 32 - 1`.  For `2 ^ 32 - 1` it is an index that no text is the key of, and from
there on the key of an earlier position.  Every position that a length allows is reached, and at
each of them from `2 ^ 32 - 1` on a property with the name of the position is passed over. -/
theorem positions_start_again (eng : Engine) :
    (∀ o, eng.arraySource o = Engine.visit o "[]" (do
      let length ← eng.lengthOfArrayLike o
      let elements ← eng.sourcesUnder o ((List.range length).map Key.ofPosition)
      pure (Text.ofString "[" ++ Text.concat (elements ++ [Text.ofString "]"])))) ∧
    (∀ it a c i length m m₁, Heap.kind m.heap it = .iterator (.arrayValues a) c →
      c.position? = some i → eng.lengthOfArrayLike a m = .ok length m₁ →
      eng.advance it m =
        if i < length then
          (eng.get a (.ofPosition i) >>= fun v => Engine.newResult v false)
            (m₁.moved it (.active (i + 1)))
        else Engine.newResult .undefined true (m₁.moved it .exhausted)) ∧
    (∀ i, (Key.ofPosition i = Key.ofText (Text.ofNat i) ↔ i < 2 ^ 32 - 1) ∧
      (i % 2 ^ 32 = 2 ^ 32 - 1 ∧ Key.ofPosition i = .index (2 ^ 32 - 1) ∧
          (∀ t, Key.ofText t ≠ .index (2 ^ 32 - 1)) ∨
        i % 2 ^ 32 < 2 ^ 32 - 1 ∧ Key.ofPosition i = Key.ofText (Text.ofNat (i % 2 ^ 32)))) ∧
    ∀ i < 2 ^ 53 - 1, ∃ m a it c, Machine.Attained m ∧
      m.heap.kind it = .iterator (.arrayValues a) c ∧ c.position? = some i ∧
      (∃ d, (m.heap.object a).ownDescriptor (Key.ofText (Text.ofNat i)) = some d ∧
        d.value = some (.text "x")) ∧
      ∀ n, (engine (n + 2)).lengthOfArrayLike a m = .ok (2 ^ 53 - 1) m ∧
        ∃ result m', (engine (n + 2)).advance it m = .ok result m' ∧
          m'.heap.object result =
            .reporting (if i < 2 ^ 32 - 1 then .text "x" else .undefined) false := by
  refine ⟨fun o => ?_, fun it a c i length m m₁ hkind hi hlength =>
    eng.advance_arrayValues hkind hi hlength, fun i => ⟨Key.ofPosition_eq_iff, ?_⟩,
    fun i hi => ?_⟩
  · simp only [Engine.arraySource, Engine.elementSources_eq, List.range_eq_range']
  · rcases Key.ofPosition_cases i with ⟨hlimit, hkey⟩ | hbelow
    · exact .inl ⟨hlimit, hkey, Key.ofText_ne_limit⟩
    · exact .inr hbelow
  · have hk : Key.ofText (Text.ofNat i) ≠ .length := Key.ofText_ofNat_ne_length i
    obtain ⟨m, hiterates⟩ := (Machine.iteratesSparse_sparseAt hk).reaches (Nat.le_of_lt hi)
    obtain ⟨c, hkind, hposition⟩ := hiterates.iterator
    refine ⟨m, ⟨46⟩, ⟨47⟩, c, hiterates.attained, hkind, hposition, hiterates.sparse.own, fun n =>
      ⟨hiterates.sparse.lengthOfArrayLike n, ?_⟩⟩
    obtain ⟨result, m', hrun, -, hreports⟩ := hiterates.advance hi n
    refine ⟨result, m', hrun, hreports.trans ?_⟩
    simp only [Key.ofPosition_eq_iff]
    rfl

/-- At position `2 ^ 32` the value of the property "0" is read, and that of "4294967296" is not. -/
theorem positions_start_again_far :
    Key.ofPosition 4294967296 = Key.ofText "0" ∧
    ∃ m a it c, Machine.Attained m ∧ m.heap.kind it = .iterator (.arrayValues a) c ∧
      c.position? = some 4294967296 ∧
      (∃ d, (m.heap.object a).ownDescriptor (Key.ofText "4294967296") = some d ∧
        d.value = some (.text "x")) ∧
      (engine 2).lengthOfArrayLike a m = .ok 9007199254740991 m ∧
      (engine 2).advance it m =
        ((engine 2).get a (Key.ofText "0") >>= fun v => Engine.newResult v false)
          (m.moved it (.active 4294967297)) ∧
      ∃ result m', (engine 2).advance it m = .ok result m' ∧
        m'.heap.object result = .reporting .undefined false := by
  obtain ⟨-, hadvance, -, hreaches⟩ := positions_start_again (engine 2)
  have hkey : Key.ofPosition 4294967296 = Key.ofText "0" := by decide +kernel
  have htext : Text.ofNat 4294967296 = "4294967296" := by decide +kernel
  obtain ⟨m, a, it, c, hm, hkind, hposition, hown, hsteps⟩ := hreaches 4294967296 (by decide)
  obtain ⟨hlength, result, m', hrun, hreports⟩ := hsteps 0
  rw [htext] at hown
  refine ⟨hkey, m, a, it, c, hm, hkind, hposition, hown, hlength, ?_, result, m', hrun, hreports⟩
  have hstep := hadvance it a c 4294967296 _ m m hkind hposition hlength
  rwa [hkey, if_pos (by decide)] at hstep

end ObjectModel
