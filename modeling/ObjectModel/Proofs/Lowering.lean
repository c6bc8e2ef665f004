import ObjectModel.Proofs.ArrayLength
import ObjectModel.Proofs.Integrity

/-!
# Lowering the length of an array

A smaller length removes elements from the top.  An element that may not be removed stops the
removal, becomes the last one, and the definition of the length is refused
(`lowered_length`).  The elements are listed by a table that may hold them in any order; as they
are sorted before they are removed, that order does not matter (`Object.lower_perm`).
-/

namespace ObjectModel

/-! ## Numbers that are lengths -/

theorem Number.modWord_ofNat {n : Nat} (hn : n ≤ maxWord) : (ofNat n).modWord = n := by
  have hmax : n < 2 ^ 53 := Nat.lt_of_le_of_lt hn (by decide)
  rw [ofNat_eq hmax]
  simp only [modWord, floorOfCode_nearestCode hmax, Bool.false_eq_true, if_false]
  unfold maxWord at hn ⊢
  omega

/-- The length that a primitive value stands for. -/
def Value.length? (v : Value) : Option Nat :=
  v.number?.bind fun x => if x.numericEq (.ofNat x.modWord) then some x.modWord else none

theorem Value.length?_ofNat {n : Nat} (hn : n ≤ Number.maxWord) :
    (Value.ofNat n).length? = some n := by
  have hmax : n < 2 ^ 53 := Nat.lt_of_le_of_lt hn (by decide)
  have hself : (Number.ofNat n).numericEq (.ofNat n) = true := by
    have hfinite : Number.ofNat n ≠ .nan := by
      rw [Number.ofNat_eq hmax]
      intro hnan
      cases hnan
    simp [Number.numericEq, hfinite]
  show (if (Number.ofNat n).numericEq (.ofNat (Number.ofNat n).modWord) then
    some (Number.ofNat n).modWord else none) = some n
  rw [Number.modWord_ofNat hn, if_pos hself]

theorem Value.number?_of_length? {v : Value} {n : Nat} (h : v.length? = some n) :
    ∃ x, v.number? = some x ∧ x.numericEq (.ofNat x.modWord) = true ∧ x.modWord = n := by
  unfold Value.length? at h
  obtain ⟨x, hx, hn⟩ := Option.bind_eq_some_iff.1 h
  split at hn
  · next hexact =>
    cases hn
    exact ⟨x, hx, hexact, rfl⟩
  · cases hn

/-! ## Elements removed from the top -/

namespace Object

variable {o o' : Object} {k : Key}

/-- The element exists and may not be removed. -/
def Holds (o : Object) (i : Nat) : Prop :=
  ∃ d, o.ownDescriptor (.index i) = some d ∧ d.configurable = some false

theorem ownDescriptor_index (o : Object) (i : Nat) :
    o.ownDescriptor (.index i) = (o.properties.find? (.index i)).map Property.toDescriptor :=
  ownDescriptor_eq fun _ heq => Key.length_ne_index i heq.symm

theorem holds_iff {i : Nat} :
    o.Holds i ↔ ∃ p, o.properties.find? (.index i) = some p ∧ p.configurable = false := by
  unfold Holds
  rw [ownDescriptor_index]
  constructor
  · rintro ⟨d, hd, hfixed⟩
    obtain ⟨p, hp, rfl⟩ := Option.map_eq_some_iff.1 hd
    rw [Property.configurable_toDescriptor, Option.some_inj] at hfixed
    exact ⟨p, hp, hfixed⟩
  · rintro ⟨p, hp, hfixed⟩
    refine ⟨p.toDescriptor, by rw [hp]; rfl, ?_⟩
    rw [Property.configurable_toDescriptor, hfixed]

theorem delete?_eq_none_iff {i : Nat} : o.delete? (.index i) = none ↔ o.Holds i := by
  rw [holds_iff]
  unfold delete?
  cases o.properties.find? (.index i) with
  | none => simp
  | some p => simp

theorem entries_delete? (h : o.delete? k = some o') :
    o'.properties.entries = o.properties.entries.filter fun e => e.1 ≠ k := by
  unfold delete? at h
  split at h
  · next hnone =>
    cases h
    refine (List.filter_eq_self.2 fun e he => ?_).symm
    rw [decide_eq_true_iff]
    intro heq
    have hfind := Slots.mem_entries.1 he
    rw [heq, hnone] at hfind
    cases hfind
  · split at h
    · cases h
      exact PropertyTable.entries_remove _ _
    · cases h

theorem extensible_delete? (h : o.delete? k = some o') : o'.extensible = o.extensible := by
  unfold delete? at h
  split at h
  · cases h
    rfl
  · split at h
    · cases h
      rfl
    · cases h

theorem holds_delete? {i : Nat} (h : o.delete? (.index i) = some o') (j : Nat) :
    o'.Holds j ↔ o.Holds j := by
  rw [holds_iff, find?_delete? h]
  split
  · next heq =>
    cases heq
    have hfree : ¬ o.Holds i := by
      rw [← delete?_eq_none_iff, h]
      intro hnone
      cases hnone
    simpa using hfree
  · exact holds_iff.symm

/-- What the removal in a given order leaves: the indexes before the first element that stays are
gone, and nothing else is. -/
structure Cleared (o o' : Object) (removed : List Nat) : Prop where
  entries : o'.properties.entries =
    o.properties.entries.filter fun e => e.1 ∉ removed.map Key.index
  prototype : o'.prototype = o.prototype
  extensible : o'.extensible = o.extensible
  free : ∀ i ∈ removed, ¬ o.Holds i

theorem Cleared.refl (o : Object) : o.Cleared o [] :=
  ⟨(List.filter_eq_self.2 fun e _ => by simp).symm, rfl, rfl, by simp⟩

theorem cleared_deleteIndexes {is : List Nat} {stop : Option Nat}
    (h : o.deleteIndexes is = (o', stop)) :
    ∃ removed kept, is = removed ++ kept ∧ kept.head? = stop ∧ (∀ i ∈ stop, o.Holds i) ∧
      o.Cleared o' removed := by
  induction is generalizing o with
  | nil =>
    cases h
    exact ⟨[], [], rfl, rfl, by simp, .refl _⟩
  | cons i rest ih =>
    rw [deleteIndexes] at h
    split at h
    · next o₁ hdelete =>
      obtain ⟨removed, kept, rfl, hstop, hholds, hcleared⟩ := ih h
      have hfree : ¬ o.Holds i := by
        rw [← delete?_eq_none_iff, hdelete]
        intro hnone
        cases hnone
      refine ⟨i :: removed, kept, rfl, hstop, ?_, ?_, ?_, ?_, fun j hj => ?_⟩
      · exact fun j hj => (holds_delete? hdelete j).1 (hholds j hj)
      · rw [hcleared.entries, entries_delete? hdelete, List.filter_filter]
        refine List.filter_congr fun e _ => ?_
        rw [← Bool.decide_and, decide_eq_decide, List.map_cons, List.mem_cons, not_or, and_comm]
      · exact hcleared.prototype.trans (prototype_delete? hdelete)
      · exact hcleared.extensible.trans (extensible_delete? hdelete)
      · rcases List.mem_cons.1 hj with rfl | hj
        · exact hfree
        · exact fun hholds => hcleared.free j hj ((holds_delete? hdelete j).2 hholds)
    · next hdelete =>
      cases h
      refine ⟨[], i :: rest, rfl, rfl, fun j hj => ?_, .refl _⟩
      cases hj
      exact delete?_eq_none_iff.1 hdelete

end Object

/-! ## What is left below a length -/

/-- The key is no index from a length on. -/
def Key.isBelow (length : Nat) (k : Key) : Bool := k.index?.all (· < length)

theorem Key.isBelow_of_not_isIndex {k : Key} (hk : k.isIndex = false) (length : Nat) :
    k.isBelow length = true := by
  cases k with
  | index i => cases hk
  | _ => rfl

namespace PropertyTable

variable {t t' : PropertyTable} {length : Nat}

/-- A table without the elements from a length on. -/
def Below (t t' : PropertyTable) (length : Nat) : Prop :=
  t'.entries = t.entries.filter fun e => e.1.isBelow length

variable (h : t.Below t' length)

include h

theorem Below.find? (k : Key) : t'.find? k = if k.isBelow length then t.find? k else none := by
  apply Option.ext
  intro p
  rw [← Slots.mem_entries, h, List.mem_filter, Slots.mem_entries]
  cases k.isBelow length <;> simp

theorem Below.indexes : t'.indexes = t.indexes.filter (· < length) := by
  unfold PropertyTable.indexes
  rw [h, List.filterMap_filter, List.filter_filterMap]
  refine List.filterMap_congr fun e _ => ?_
  cases e.1 with
  | index i => simp [Key.isBelow, Key.index?, Option.filter]
  | _ => rfl

/-- Keys that are no indexes are listed as before. -/
theorem Below.filter_keys {f : Key → Bool} (hf : ∀ k, f k = true → k.isIndex = false) :
    (t'.entries.map Prod.fst).filter f = (t.entries.map Prod.fst).filter f := by
  rw [h, List.filter_map, List.filter_map, List.filter_filter]
  congr 1
  refine List.filter_congr fun e _ => ?_
  cases hkey : (f ∘ Prod.fst) e with
  | false => rfl
  | true => rw [Bool.true_and, Key.isBelow_of_not_isIndex (hf e.1 hkey)]

theorem Below.names : t'.names = t.names := by
  refine h.filter_keys fun k hk => ?_
  simp only [Bool.and_eq_true, Bool.not_eq_true'] at hk
  exact hk.1

theorem Below.symbols : t'.symbols = t.symbols := by
  refine h.filter_keys fun k hk => ?_
  cases k with
  | symbol s => rfl
  | _ => cases hk

/-- **The keys of an array keep their order.** -/
theorem Below.keys :
    Object.insertLength t'.keys = (Object.insertLength t.keys).filter (Key.isBelow length) := by
  have hsorted : (t.indexes.filter (· < length)).mergeSort (· ≤ ·) =
      (t.indexes.mergeSort (· ≤ ·)).filter (· < length) := by
    refine List.Perm.eq_of_pairwise' (List.pairwise_mergeSort' (· ≤ ·) _)
      ((List.pairwise_mergeSort' (· ≤ ·) _).filter _) ?_
    exact (List.mergeSort_perm _ _).trans ((List.mergeSort_perm _ _).symm.filter _)
  have hindexes : ((t.indexes.mergeSort (· ≤ ·)).map Key.index).filter (Key.isBelow length) =
      ((t.indexes.mergeSort (· ≤ ·)).filter (· < length)).map Key.index := by
    rw [List.filter_map]
    rfl
  have hrest : (t.names ++ t.symbols).filter (Key.isBelow length) = t.names ++ t.symbols := by
    rw [List.filter_eq_self]
    exact fun k hk => Key.isBelow_of_not_isIndex (t.isIndex_of_mem_names hk) length
  rw [insertLength_keys, insertLength_keys, h.indexes, h.names, h.symbols, hsorted,
    List.filter_append, List.filter_cons_of_pos (by rfl), hrest, hindexes]

end PropertyTable

namespace Object

variable {o o' : Object}

/-- The array has lost exactly the elements from a length on, which is its length now. -/
structure CutAt (o o' : Object) (length : Nat) (writable : Bool) : Prop where
  kind : o'.kind = .array length writable
  gone : ∀ i, length ≤ i → o'.ownDescriptor (.index i) = none
  kept : ∀ k, k ≠ .length → k.isBelow length = true → o'.ownDescriptor k = o.ownDescriptor k
  keys : o'.ownKeys = o.ownKeys.filter (Key.isBelow length)
  prototype : o'.prototype = o.prototype
  extensible : o'.extensible = o.extensible

theorem Cleared.cutAt {removed : List Nat} (h : o.Cleared o' removed) (harray : o.isArray = true)
    {length : Nat}
    (hremoved : ∀ i p, o.properties.find? (.index i) = some p → (i ∈ removed ↔ length ≤ i))
    (writable : Bool) : o.CutAt (o'.withLength length writable) length writable := by
  have hbelow : o.properties.Below o'.properties length := by
    rw [PropertyTable.Below, h.entries]
    refine List.filter_congr fun e he => ?_
    cases hkey : e.1 with
    | index i =>
      have hfind := Slots.mem_entries.1 he
      rw [hkey] at hfind
      have hmem := hremoved i _ hfind
      simp [Key.isBelow, Key.index?, hmem]
    | _ => simp [Key.isBelow, Key.index?]
  have hdescriptor {k : Key} (hk : k ≠ .length) :
      (o'.withLength length writable).ownDescriptor k =
        if k.isBelow length then o.ownDescriptor k else none := by
    rw [ownDescriptor_eq fun _ => hk, ownDescriptor_eq fun _ => hk]
    show (o'.properties.find? k).map _ = _
    rw [hbelow.find?]
    split <;> rfl
  refine ⟨rfl, fun i hi => ?_, fun k hk hkept => ?_, ?_, h.prototype, h.extensible⟩
  · rw [hdescriptor fun heq => Key.length_ne_index i heq.symm, if_neg]
    simp [Key.isBelow, Key.index?, hi]
  · rw [hdescriptor hk, if_pos hkept]
  · have hkeys : o.ownKeys = insertLength o.properties.keys := by
      obtain ⟨old, oldWritable, hkind⟩ := exists_of_isArray harray
      simp only [ownKeys, hkind]
    rw [hkeys, ← hbelow.keys]
    rfl

/-- **A smaller length removes what is beyond it, or what is beyond the last element that stays.** -/
theorem shrink_cutAt (harray : o.isArray = true) (length : Nat) (writable : Bool) :
    (∀ i, length ≤ i → ¬ o.Holds i) ∧ (o.shrink length writable).2 = true ∧
        o.CutAt (o.shrink length writable).1 length writable ∨
      ∃ last, length ≤ last ∧ o.Holds last ∧ (∀ i, length ≤ i → o.Holds i → i ≤ last) ∧
        (o.shrink length writable).2 = false ∧
        o.CutAt (o.shrink length writable).1 (last + 1) writable := by
  have hdown : (o.properties.indexesFrom length).reverse.Pairwise (· ≥ ·) :=
    List.pairwise_reverse.2 (o.properties.pairwise_indexesFrom length)
  cases hdeleted : o.deleteIndexes (o.properties.indexesFrom length).reverse with
  | mk o₁ stop =>
    obtain ⟨removed, kept, hsplit, hstop, hholds, hcleared⟩ := cleared_deleteIndexes hdeleted
    have hlisted {i : Nat} : i ∈ removed ++ kept ↔
        length ≤ i ∧ ∃ p, o.properties.find? (.index i) = some p := by
      rw [← hsplit, List.mem_reverse, PropertyTable.mem_indexesFrom]
    have hstored {i : Nat} (hi : o.Holds i) : ∃ p, o.properties.find? (.index i) = some p := by
      obtain ⟨p, hp, -⟩ := holds_iff.1 hi
      exact ⟨p, hp⟩
    unfold Object.shrink
    rw [hdeleted]
    cases stop with
    | none =>
      rw [List.head?_eq_none_iff.1 hstop, List.append_nil] at hlisted
      refine .inl ⟨fun i hi hheld => ?_, rfl, ?_⟩
      · exact hcleared.free i (hlisted.2 ⟨hi, hstored hheld⟩) hheld
      · refine hcleared.cutAt harray (fun i p hp => ?_) writable
        rw [hlisted]
        exact and_iff_left ⟨p, hp⟩
    | some last =>
      obtain ⟨rest, rfl⟩ := List.head?_eq_some_iff.1 hstop
      have hlast : o.Holds last := hholds last rfl
      rw [hsplit] at hdown
      have hrest : ∀ i ∈ last :: rest, i ≤ last := by
        intro i hi
        rcases List.mem_cons.1 hi with rfl | hi
        · exact Nat.le_refl _
        · exact (List.pairwise_cons.1 (List.pairwise_append.1 hdown).2.1).1 i hi
      -- what is removed is above the element that stays, which is not removed itself
      have habove : ∀ i ∈ removed, last < i := by
        intro i hi
        have hle : last ≤ i := (List.pairwise_append.1 hdown).2.2 i hi last List.mem_cons_self
        have hne : i ≠ last := by
          rintro rfl
          exact hcleared.free i hi hlast
        omega
      have hfrom : length ≤ last := (hlisted.1 (by simp)).1
      refine .inr ⟨last, hfrom, hlast, fun i hi hheld => ?_, rfl, ?_⟩
      · rcases List.mem_append.1 (hlisted.2 ⟨hi, hstored hheld⟩) with hmem | hmem
        · exact absurd hheld (hcleared.free i hmem)
        · exact hrest i hmem
      · refine hcleared.cutAt harray (fun i p hp => ⟨habove i, fun hi => ?_⟩) writable
        have hmem : i ∈ removed ++ last :: rest := hlisted.2 ⟨by omega, p, hp⟩
        refine (List.mem_append.1 hmem).resolve_right fun hkept => ?_
        have hle := hrest i hkept
        omega

/-- Gives an array a smaller length where its indexes are listed in some order. -/
def lower (o : Object) (listed : List Nat) (length : Nat) (writable : Bool) : Object × Bool :=
  settled (o.deleteIndexes ((listed.filter (length ≤ ·)).mergeSort (· ≤ ·)).reverse) length writable

/-- **The order in which the indexes are listed does not matter.** -/
theorem lower_perm {listed : List Nat} (h : listed.Perm o.properties.indexes) (length : Nat)
    (writable : Bool) : o.lower listed length writable = o.shrink length writable := by
  have hsorted : (listed.filter (length ≤ ·)).mergeSort (· ≤ ·) =
      o.properties.indexesFrom length := by
    refine List.Perm.eq_of_pairwise' (List.pairwise_mergeSort' (· ≤ ·) _)
      (o.properties.pairwise_indexesFrom length) ?_
    exact (List.mergeSort_perm _ _).trans ((h.filter _).trans (List.mergeSort_perm _ _).symm)
  rw [lower, hsorted]
  rfl

end Object

/-! ## Arrays of a realm -/

section Lowering

variable {m : Machine} {o : Ref} {length : Nat} {writable : Bool}

/-- Assigning to the length of an array defines it by the value. -/
theorem engine_setLength (hkind : m.heap.kind o = .array length true) (v : Value) (fuel : Nat) :
    (engine (fuel + 2)).setFor o .length v (.object o) m =
      (engine (fuel + 1)).defineOwnProperty o .length { value := some v } m := by
  have hproxy : (m.heap.object o).isProxy = false := by
    simp [Object.isProxy, show (m.heap.object o).kind = _ from hkind]
  have hown : (engine (fuel + 1)).getOwnProperty o .length m =
      .ok (some (Object.lengthDescriptor length true)) m := by
    rw [← hostedEngine_none, hosted_getOwnProperty hproxy, Object.ownDescriptor_length hkind]
  refine (Run.kind_bind_of_not_proxy hproxy _ _).trans ?_
  show (engine (fuel + 1)).ordinarySet o .length v (.object o) m = _
  rw [Engine.ordinarySet, Run.bind_ok hown]
  show (engine (fuel + 1)).setOnReceiver (.object o) .length v m = _
  rw [Engine.setOnReceiver, Run.bind_ok hown]
  rfl

/-- **A smaller length removes the elements from the top, up to the first that stays.**  The elements
of an array are below its length.  A definition or an assignment of a smaller length is accepted if
no element from there on is fixed; else it is refused and the greatest fixed element is the last.
Either way exactly the elements beyond the new length are gone, in whatever order the table lists
them, and the length is read-only if and only if that was asked for. -/
theorem lowered_length (hm : m.Attained) (hkind : m.heap.kind o = .array length writable)
    (fuel : Nat) :
    (∃ keys, (engine (fuel + 1)).ownKeys o m = .ok keys m ∧ ∀ i, .index i ∈ keys → i < length) ∧
    ∀ {n : Nat} {v : Value} {d : Descriptor}, writable = true → v.IsPrimitive →
      v.length? = some n → n < length → d.value = some v →
      d.configurable ≠ some true → d.enumerable ≠ some true →
      ∃ verdict a, (engine (fuel + 1)).defineOwnProperty o .length d m =
          .ok verdict (m.replace o a) ∧
        ((∀ i, n ≤ i → ¬ (m.heap.object o).Holds i) ∧ verdict = true ∧
            (m.heap.object o).CutAt a n (d.writable != some false) ∨
          ∃ last, n ≤ last ∧ (m.heap.object o).Holds last ∧
            (∀ i, n ≤ i → (m.heap.object o).Holds i → i ≤ last) ∧ verdict = false ∧
            (m.heap.object o).CutAt a (last + 1) (d.writable != some false)) ∧
        (∀ listed, listed.Perm (m.heap.object o).properties.indexes →
          (m.heap.object o).lower listed n (d.writable != some false) = (a, verdict)) ∧
        (d = { value := some v } → (engine (fuel + 2)).setFor o .length v (.object o) m =
          .ok verdict (m.replace o a)) := by
  have hproxy : (m.heap.object o).isProxy = false := by
    simp [Object.isProxy, show (m.heap.object o).kind = _ from hkind]
  refine ⟨⟨(m.heap.object o).ownKeys, ?_, fun i hi => ?_⟩, ?_⟩
  · rw [← hostedEngine_none]
    exact hosted_ownKeys hproxy
  · rw [Object.mem_ownKeys, Object.ownDescriptor_index, Option.isSome_map] at hi
    obtain ⟨p, hp⟩ := Option.isSome_iff_exists.1 hi
    exact (hm.regular.objects o length writable hkind).2.1 i p hp
  · rintro n v d rfl hv hlength hn hvalue hconfigurable henumerable
    obtain ⟨x, hx, hexact, rfl⟩ := Value.number?_of_length? hlength
    have harray : (m.heap.object o).isArray = true := by
      simp [Object.isArray, show (m.heap.object o).kind = _ from hkind]
    have hprimitive : ∀ w, d.value = some w → w.IsPrimitive := by
      intro w hw
      rw [hvalue] at hw
      cases hw
      exact hv
    have hdefine : (engine (fuel + 1)).defineOwnProperty o .length d m =
        .ok ((m.heap.object o).shrink x.modWord (d.writable != some false)).2
          (m.replace o ((m.heap.object o).shrink x.modWord (d.writable != some false)).1) := by
      have hresize : (m.heap.object o).resize x.modWord (d.writable.getD true) =
          (m.heap.object o).shrink x.modWord (d.writable.getD true) := by
        rw [Object.resize, show (m.heap.object o).kind = _ from hkind]
        exact if_neg (Nat.not_le.2 hn)
      rw [d.writable_ne_false, ← hresize, engine_defineLength hkind,
        Engine.defineLength_primitive hprimitive]
      simp only [hvalue, Option.map_some, hx, hexact, Bool.not_true, Bool.false_eq_true, if_false]
      rw [if_neg (by simp [hconfigurable, henumerable])]
      rfl
    refine ⟨_, _, hdefine, (m.heap.object o).shrink_cutAt harray x.modWord _, ?_, ?_⟩
    · exact fun listed hlisted => Object.lower_perm hlisted x.modWord _
    · rintro rfl
      rw [engine_setLength hkind, hdefine]

end Lowering

/-- The middle element of three stays when the length is set to `0`, which is read-only then. -/
theorem lowered_length_fixedElement :
    Machine.fixedElement.Attained ∧ Machine.fixedElement.heap.kind ⟨46⟩ = .array 3 true ∧
      ∃ a, (engine 1).defineOwnProperty ⟨46⟩ .length
          { value := some (.ofNat 0), writable := some false } Machine.fixedElement =
            .ok false (Machine.fixedElement.replace ⟨46⟩ a) ∧
        (Machine.fixedElement.heap.object ⟨46⟩).CutAt a 2 false := by
  have hdecided : (Machine.fixedElement.heap.kind ⟨46⟩).length? = some (3, true) ∧
      (Machine.fixedElement.heap.object ⟨46⟩).ownDescriptor (.index 1) =
        some { value := some (.ofNat 8), writable := some true, enumerable := some true
               configurable := some false } ∧
      (Machine.fixedElement.heap.object ⟨46⟩).ownDescriptor (.index 2) =
        some { value := some (.ofNat 9), writable := some true, enumerable := some true
               configurable := some true } := by decide +kernel
  have hm := Machine.attained_fixedElement
  -- from here on the machine is not evaluated any more
  generalize Machine.fixedElement = m at *
  obtain ⟨hlength, hfixed, hfree⟩ := hdecided
  have hkind := Kind.eq_of_length? hlength
  have hone : (m.heap.object ⟨46⟩).Holds 1 := ⟨_, hfixed, rfl⟩
  have htwo : ¬ (m.heap.object ⟨46⟩).Holds 2 := by
    rintro ⟨d, hd, hconfigurable⟩
    rw [hfree] at hd
    cases hd
    cases hconfigurable
  obtain ⟨-, hlower⟩ := lowered_length hm hkind 0
  obtain ⟨verdict, a, hdefine, hcut, -⟩ :=
    hlower (d := { value := some (.ofNat 0), writable := some false }) rfl
      (fun r hr => by cases hr) (Value.length?_ofNat (Nat.zero_le _)) (by decide) rfl
      (by decide) (by decide)
  refine ⟨hm, hkind, a, ?_⟩
  rcases hcut with ⟨hnone, -⟩ | ⟨last, -, hlast, hgreatest, rfl, hcut⟩
  · exact absurd hone (hnone 1 (Nat.zero_le _))
  · have hle : 1 ≤ last := hgreatest 1 (Nat.zero_le _) hone
    have hlt : last < 3 := by
      obtain ⟨p, hp, -⟩ := Object.holds_iff.1 hlast
      exact (hm.regular.objects ⟨46⟩ 3 true hkind).2.1 last p hp
    have hne : last ≠ 2 := by
      rintro rfl
      exact htwo hlast
    obtain rfl : last = 1 := by omega
    exact ⟨hdefine, hcut⟩

end ObjectModel
