import Mathlib.Data.List.Sort
import ObjectModel.Proofs.Lineage

/-!
# Arrays are regular

The elements of an array stand below its length, and the length itself is a word and no stored
property (`Object.Regular`).  Every revision of an object keeps that: an element beyond the end
raises the length, and a smaller length removes the elements from the top until one stays, which
then is the last.  So it holds of every object at every moment of a history
(`Machine.Attained.regular`).
-/

namespace ObjectModel

/-! ## The indexes of a table -/

namespace PropertyTable

variable (t : PropertyTable)

theorem mem_indexes {i : Nat} : i ∈ t.indexes ↔ ∃ p, t.find? (.index i) = some p := by
  unfold indexes
  rw [List.mem_filterMap]
  constructor
  · rintro ⟨⟨k, p⟩, he, hk⟩
    cases k with
    | index j =>
      cases hk
      exact ⟨p, Slots.mem_entries.1 he⟩
    | _ => cases hk
  · rintro ⟨p, hp⟩
    exact ⟨_, Slots.mem_entries.2 hp, rfl⟩

theorem mem_indexesFrom {i start : Nat} :
    i ∈ t.indexesFrom start ↔ start ≤ i ∧ ∃ p, t.find? (.index i) = some p := by
  unfold indexesFrom
  rw [List.mem_mergeSort, List.mem_filter, mem_indexes, decide_eq_true_iff, and_comm]

theorem pairwise_indexesFrom (start : Nat) : (t.indexesFrom start).Pairwise (· ≤ ·) :=
  List.pairwise_mergeSort' (· ≤ ·) _

end PropertyTable

/-! ## Revisions -/

namespace Object

variable {o o' : Object} {k : Key} {d : Descriptor}

theorem find?_delete? (h : o.delete? k = some o') (k' : Key) :
    o'.properties.find? k' = if k' = k then none else o.properties.find? k' := by
  unfold delete? at h
  split at h
  · next hnone =>
    cases h
    split
    · next hk =>
      subst hk
      exact hnone
    · rfl
  · split at h
    · cases h
      exact PropertyTable.find?_remove _ _ _
    · cases h

/-- The elements are removed up to the first that stays. -/
theorem find?_deleteIndexes {is : List Nat} {stop : Option Nat}
    (h : o.deleteIndexes is = (o', stop)) :
    ∃ removed kept, is = removed ++ kept ∧ kept.head? = stop ∧
      ∀ k, o'.properties.find? k =
        if k ∈ removed.map Key.index then none else o.properties.find? k := by
  induction is generalizing o with
  | nil =>
    cases h
    exact ⟨[], [], rfl, rfl, fun _ => rfl⟩
  | cons i rest ih =>
    rw [deleteIndexes] at h
    split at h
    · next o₁ hdelete =>
      obtain ⟨removed, kept, rfl, hstop, hfind⟩ := ih h
      refine ⟨i :: removed, kept, rfl, hstop, fun k => ?_⟩
      rw [hfind, find?_delete? hdelete]
      by_cases hk : k ∈ removed.map Key.index
      · simp only [List.map_cons, List.mem_cons, hk, or_true, if_true]
      · simp only [List.map_cons, List.mem_cons, hk, or_false, if_false]
    · cases h
      exact ⟨[], i :: rest, rfl, rfl, fun _ => rfl⟩

theorem kind_deleteIndexes {is : List Nat} {stop : Option Nat}
    (h : o.deleteIndexes is = (o', stop)) : o'.kind = o.kind := by
  have hkind := (o.upheld_deleteIndexes is).2
  rwa [h] at hkind

namespace Regular

/-- Storing a property other than an element or the length. -/
theorem insert (h : o.Regular) (hlength : o.isArray = true → k ≠ .length) (hk : k.isIndex = false)
    (p : Property) : Regular { o with properties := o.properties.insert k p } := by
  intro length writable hkind
  have hkind : o.kind = .array length writable := hkind
  obtain ⟨habsent, hbelow, hword⟩ := h length writable hkind
  refine ⟨?_, fun i q hq => hbelow i q ?_, hword⟩
  · have hne : Key.length ≠ k := fun heq => hlength (by simp [isArray, hkind]) heq.symm
    rw [Slots.find?_insert, if_neg hne]
    exact habsent
  · have hne : Key.index i ≠ k := by
      rintro rfl
      cases hk
    rwa [Slots.find?_insert, if_neg hne] at hq

/-- Fewer properties are as regular. -/
theorem of_find? (h : o.Regular) (hkind : o'.kind = o.kind)
    (hfind : ∀ k p, o'.properties.find? k = some p → o.properties.find? k = some p) :
    o'.Regular := by
  intro length writable harray
  obtain ⟨habsent, hbelow, hword⟩ := h length writable (hkind.symm.trans harray)
  refine ⟨Option.eq_none_iff_forall_ne_some.2 fun p hp => ?_,
    fun i p hp => hbelow i p (hfind _ p hp), hword⟩
  have hstored := hfind _ p hp
  rw [habsent] at hstored
  cases hstored

theorem delete? (h : o.Regular) (hd : o.delete? k = some o') : o'.Regular := by
  refine h.of_find? (kind_delete? hd) fun k' p hp => ?_
  rw [find?_delete? hd] at hp
  split at hp
  · cases hp
  · exact hp

/-- Another length has to be above the elements. -/
theorem withLength {length length' : Nat} {writable : Bool} (h : o.Regular)
    (hkind : o.kind = .array length writable)
    (hbelow : ∀ i p, o.properties.find? (.index i) = some p → i < length')
    (hword : length' ≤ Number.maxWord) (writable' : Bool) :
    (o.withLength length' writable').Regular := by
  intro length'' writable'' hkind'
  cases hkind'
  exact ⟨(h length writable hkind).1, hbelow, hword⟩

theorem defineElement? {i : Nat} (h : o.Regular) (hd : o.defineElement? i d = some o') :
    o'.Regular := by
  unfold Object.defineElement? at hd
  split at hd
  · next length writable hkind =>
    split at hd
    · cases hd
    · next hfree =>
      obtain ⟨o₁, hdefine, rfl⟩ := Option.map_eq_some_iff.1 hd
      obtain ⟨p, -, rfl⟩ := exists_of_define? hdefine
      obtain ⟨habsent, hbelow, hword⟩ := h length writable hkind
      have habsent' : (o.properties.insert (.index i) p).find? .length = none := by
        rw [Slots.find?_insert, if_neg (Key.length_ne_index i)]
        exact habsent
      have hindex {j : Nat} {q : Property}
          (hq : (o.properties.insert (.index i) p).find? (.index j) = some q) :
          j = i ∨ j < length := by
        rw [Slots.find?_insert] at hq
        split at hq
        · next heq =>
          cases heq
          exact .inl rfl
        · exact .inr (hbelow j q hq)
      intro length' writable' hkind'
      split at hkind'
      · next hle =>
        cases hkind'
        rw [if_pos hle]
        refine ⟨habsent', fun j q hq => ?_, ?_⟩
        · have hj := hindex hq
          omega
        · have hlt : i < indexLimit := by
            refine Nat.lt_of_not_le fun hlimit => hfree ?_
            simp [hle, hlimit]
          exact hlt
      · next hlt =>
        have hsame : Kind.array length writable = .array length' writable' :=
          hkind.symm.trans hkind'
        cases hsame
        rw [if_neg hlt]
        refine ⟨habsent', fun j q hq => ?_, hword⟩
        have hj := hindex hq
        omega
  · next hother =>
    intro length writable hkind
    rw [kind_define? hd] at hkind
    exact absurd hkind (hother length writable)

/-- **A smaller length is above the elements that stay.** -/
theorem shrink {old length : Nat} (h : o.Regular) (hkind : o.kind = .array old true)
    (hword : length ≤ Number.maxWord) (writable : Bool) :
    (o.shrink length writable).1.Regular := by
  have hdown : (o.properties.indexesFrom length).reverse.Pairwise (· ≥ ·) :=
    List.pairwise_reverse.2 (o.properties.pairwise_indexesFrom length)
  cases hdeleted : o.deleteIndexes (o.properties.indexesFrom length).reverse with
  | mk o' stop =>
    obtain ⟨removed, kept, hsplit, hstop, hfind⟩ := find?_deleteIndexes hdeleted
    have hkind' := (kind_deleteIndexes hdeleted).trans hkind
    have hregular : o'.Regular := by
      refine h.of_find? (kind_deleteIndexes hdeleted) fun k p hp => ?_
      rw [hfind] at hp
      split at hp
      · cases hp
      · exact hp
    -- what is stored is below the length or among those that stay
    have hkept {i : Nat} {p : Property} (hp : o'.properties.find? (.index i) = some p) :
        i < length ∨ i ∈ kept := by
      rw [hfind] at hp
      split at hp
      · cases hp
      · next hnot =>
        refine or_iff_not_imp_left.2 fun hge => ?_
        have hmem : i ∈ removed ++ kept := by
          rw [← hsplit, List.mem_reverse, PropertyTable.mem_indexesFrom]
          exact ⟨Nat.le_of_not_lt hge, p, hp⟩
        refine (List.mem_append.1 hmem).resolve_left fun hremoved => hnot ?_
        exact List.mem_map_of_mem hremoved
    unfold Object.shrink
    rw [hdeleted]
    cases stop with
    | none =>
      refine hregular.withLength hkind' (fun i p hp => (hkept hp).resolve_right ?_) hword writable
      rw [List.head?_eq_none_iff.1 hstop]
      exact List.not_mem_nil
    | some last =>
      obtain ⟨rest, rfl⟩ := List.head?_eq_some_iff.1 hstop
      have hmem : last ∈ (o.properties.indexesFrom length).reverse := by simp [hsplit]
      obtain ⟨hlast, q, hq⟩ := o.properties.mem_indexesFrom.1 (List.mem_reverse.1 hmem)
      obtain ⟨-, hbelow, hold⟩ := h old true hkind
      refine hregular.withLength hkind' (fun i p hp => ?_)
        (Nat.le_trans (hbelow last q hq) hold) writable
      rw [hsplit] at hdown
      have hrest := (List.pairwise_cons.1 (List.pairwise_append.1 hdown).2.1).1
      rcases hkept hp with hlt | hmem
      · omega
      · rcases List.mem_cons.1 hmem with rfl | hmem
        · exact Nat.lt_succ_self _
        · exact Nat.lt_succ_of_le (hrest i hmem)

theorem resize {length : Nat} (h : o.Regular) (hword : length ≤ Number.maxWord)
    (writable : Bool) : (o.resize length writable).1.Regular := by
  unfold Object.resize
  split
  · next old oldWritable hkind =>
    split
    · next hle =>
      split
      · refine h.withLength hkind (fun i p hp => ?_) hword writable
        exact Nat.lt_of_lt_of_le ((h old oldWritable hkind).2.1 i p hp) hle
      · exact h
    · split
      · next hwritable =>
        subst hwritable
        exact h.shrink hkind hword writable
      · exact h
  · exact h

/-- **Every revision of a regular object is regular.** -/
theorem revision {allows : Descriptor → Prop} (h : o.Regular) (hrevision : Revision allows o o') :
    o'.Regular := by
  cases hrevision with
  | define k d _ hk hd =>
    have hdefine (hindex : k.isIndex = false) (hd : o.define? k d = some o') : o'.Regular := by
      obtain ⟨p, -, rfl⟩ := exists_of_define? hd
      exact h.insert hk hindex p
    cases k with
    | index i => exact h.defineElement? hd
    | name t => exact hdefine rfl hd
    | symbol s => exact hdefine rfl hd
  | delete k _ hd => exact h.delete? hd
  | restrictLength d =>
    unfold Object.restrictLength
    split
    · next length writable hkind =>
      split
      · exact h
      · split
        · exact h
        · obtain ⟨-, hbelow, hword⟩ := h length writable hkind
          exact h.withLength hkind hbelow hword _
    · exact h
  | resize length writable hword => exact h.resize hword writable
  | close => exact h
  | turn hturn =>
    obtain ⟨prototype, extensible, properties, kind⟩ := o
    cases hturn <;> exact regular_of_not_isArray rfl

end Regular

end Object

/-! ## Machines -/

/-- All arrays are regular. -/
structure Machine.Regular (m : Machine) : Prop where
  intrinsics : Intrinsic.all.length ≤ m.size
  objects : ∀ r, (m.heap.object r).Regular

namespace Machine.Regular

variable {m m' : Machine}

theorem congr (h : m.Regular) (hobjects : m'.heap.objects = m.heap.objects) : m'.Regular := by
  refine ⟨?_, fun r => ?_⟩
  · unfold size
    rw [hobjects]
    exact h.intrinsics
  · unfold Heap.object
    rw [hobjects]
    exact h.objects r

theorem modify (h : m.Regular) {r : Ref} {f : Object → Object}
    (hf : (f (m.heap.object r)).Regular) : (m.withHeap (m.heap.modify r f)).Regular := by
  refine ⟨?_, fun p => ?_⟩
  · rw [size_withHeap, Heap.size_modify]
    exact h.intrinsics
  · rw [heap_withHeap, Heap.object_modify]
    split
    · exact hf
    · exact h.objects p

/-- **Every change of a machine keeps its arrays regular.** -/
theorem change (h : m.Regular) {knows : Nat → Ref → Prop} {allows : Descriptor → Prop}
    (hchange : m.Change knows allows m') : m'.Regular := by
  cases hchange with
  | beside hheap _ _ _ => exact h.congr (congrArg Heap.objects hheap)
  | allocate o _ hregular =>
    refine ⟨Nat.le_trans h.intrinsics (Grown.allocate m o).size_le, fun r => ?_⟩
    rw [heap_withHeap, Heap.object_allocate]
    split
    · exact hregular
    · exact h.objects r
  | iteration proto next source _ _ =>
    have hframed := Machine.Framed.newIterationObject proto next source m
    refine ⟨Nat.le_trans h.intrinsics hframed.grows, fun r => ?_⟩
    by_cases hr : r.index < m.size
    · rw [newIterationObject_live proto next source m hr]
      exact h.objects r
    · have hfresh := newIterationObject_fresh proto next source m (Nat.le_of_not_lt hr) rfl
      exact Object.regular_of_not_isArray hfresh.1.2
  | symbol description => exact h.congr rfl
  | revise r hrevision => exact h.modify ((h.objects r).revision hrevision)
  | relink r p _ _ _ => exact h.modify (h.objects r)
  | install hnone =>
    have hinstalled := Machine.installed hnone h.intrinsics
    refine ⟨Nat.le_trans h.intrinsics (Nat.le_of_lt hinstalled.grows), fun r => ?_⟩
    by_cases hr : r.index < m.size
    · -- members are neither elements nor the length
      have hkind := hinstalled.kind_eq hr
      obtain ⟨o, ho, hobject⟩ := hinstalled.old r hr
      have hproperties : ((Run.final (Engine.install m)).heap.object r).properties =
          o.properties := by
        rw [hobject]
        split <;> rfl
      intro length writable harray
      obtain ⟨habsent, hbelow, hword⟩ := h.objects r length writable (hkind.symm.trans harray)
      rw [hproperties]
      refine ⟨?_, fun i p hp => hbelow i p ?_, hword⟩
      · rw [ho.stored _ (length_not_mem_installedKeys r)]
        exact habsent
      · rwa [ho.stored _ fun hk => by cases (named_of_mem_installedKeys hk).1] at hp
    · by_cases hnew : r.index < (Run.final (Engine.install m)).size
      · exact Object.regular_of_not_isArray (hinstalled.added r (Nat.le_of_not_lt hr) hnew).1.2
      · rw [Heap.object_of_size_le (Nat.le_of_not_lt hnew)]
        exact Object.regular_of_not_isArray rfl

end Machine.Regular

namespace Discipline

/-- What is regular stays so. -/
def regularity : Discipline where
  knows := places.knows
  allows _ := True
  scripted := True
  prompt := False
  keeps m m' := m.Regular → m'.Regular
  knows_mono := places.knows_mono
  knows_fresh := places.knows_fresh
  knows_intrinsic := places.knows_intrinsic
  keeps_refl _ := id
  keeps_trans h h' := h' ∘ h
  keeps_change hchange h := h.change hchange
  keeps_visit _ hkeeps h := (hkeeps (h.congr rfl)).congr rfl
  keeps_settle {m s m' iterator array c c'} _ _ _ _ _ _ hkeeps h := by
    refine (hkeeps h).modify ?_
    split
    · exact Object.regular_of_not_isArray rfl
    · exact (hkeeps h).objects iterator

theorem regularity_unsourced : regularity.Unsourced fun _ => True where
  keeps _ _ hkeeps h := (hkeeps (h.congr rfl)).congr rfl
  property _ _ := trivial

end Discipline

/-- Decides whether an object is regular. -/
def Object.isRegular (o : Object) : Bool :=
  match o.kind with
  | .array length _ =>
    length ≤ Number.maxWord &&
      o.properties.entries.all fun e => e.1 != .length && e.1.index?.all (· < length)
  | _ => true

theorem Object.regular_of_isRegular {o : Object} (h : o.isRegular = true) : o.Regular := by
  intro length writable hkind
  unfold isRegular at h
  rw [hkind, Bool.and_eq_true, List.all_eq_true, decide_eq_true_iff] at h
  obtain ⟨hword, h⟩ := h
  refine ⟨Option.eq_none_iff_forall_ne_some.2 fun p hp => ?_, fun i p hp => ?_, hword⟩
  · have hentry := h _ (Slots.mem_entries.2 hp)
    simp at hentry
  · have hentry := h _ (Slots.mem_entries.2 hp)
    rw [Bool.and_eq_true] at hentry
    simpa [Key.index?] using hentry.2

/-- A new realm is regular. -/
theorem regular_initialMachine (options : Options) : (Session.initialMachine options).Regular := by
  have hobjects : ∀ i < (Session.initialMachine options).heap.objects.size,
      ((Session.initialMachine options).heap.object ⟨i⟩).isRegular = true := by
    obtain ⟨_ | _, _ | _⟩ := options <;> decide +kernel
  refine ⟨(sound_initialMachine (D := .places) (Nat.zero_le _) options).2, fun r => ?_⟩
  by_cases hr : r.index < (Session.initialMachine options).heap.objects.size
  · exact Object.regular_of_isRegular (hobjects r.index hr)
  · rw [Heap.object_of_size_le (Nat.le_of_not_lt hr)]
    exact Object.regular_of_not_isArray rfl

/-- **At every moment of a history all arrays are regular.** -/
theorem Machine.Attained.regular {m : Machine} (hm : m.Attained) : m.Regular := by
  have hunsourced := Discipline.regularity_unsourced
  induction hm with
  | initial options => exact regular_initialMachine options
  | moment hm h ih =>
    obtain ⟨hsound, hsize⟩ := hm.sound (D := .regularity) trivial (fun _ => trivial) hunsourced
      (fun _ _ => .inl) (Nat.zero_le _)
    obtain ⟨hbefore, hafter⟩ := h.follows (D := .regularity) trivial (fun _ => trivial) hunsourced
      (fun _ _ => .inl) hsize hsound
    exact hafter.keeps (hbefore.keeps ih)

end ObjectModel
