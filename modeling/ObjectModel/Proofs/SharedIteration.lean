import Mathlib.Order.Bounds.Basic
import ObjectModel.Proofs.History
import ObjectModel.Proofs.IterationObject
import ObjectModel.Proofs.Regularity

/-!
# Iterations beside other acts

An iteration is stepped in several ways: by the next method of its proxy, of what an enumeration of
the proxy gives, and of what the iterator method of either gives.  A schedule is any run of such
calls and of whatever else the realm does in between, changes of the object that is iterated over
among it, as long as the iteration object is left alone (`Machine.Schedule`).

All ways move one cursor.  So each call delivers the first of the keys listed when the iteration was
made that is behind all delivered before and that counts when the call is made, whichever way that
is, and reports it with the value that is read then (`iteration_delivers_listed`).
-/

namespace ObjectModel

open Relation

/-! ## Schedules -/

/-- A call of the next method: on which object, with what fuel for the step, and what it gave. -/
structure NextCall where
  handle : Ref
  fuel : Nat
  before : Machine
  result : Ref
  after : Machine

/-- The position that a call delivers; none if it reports the end. -/
def NextCall.position? (L : Listing) (r : Ref) (s : NextCall) : Option Nat := s.before.ahead? L r

/-- If a step reads a value, the read leaves the iteration object alone. -/
def Machine.ReadsAside (m : Machine) (L : Listing) (r : Ref) (eng : Engine) : Prop :=
  ∀ q k label v m₂, m.ahead? L r = some q → L.keys[q]? = some (k, label) →
    eng.get L.object k (m.moved r (.active (q + 1))) = .ok v m₂ →
      m₂.heap.object r = (m.moved r (.active (q + 1))).heap.object r

/-- A run of calls of the next method and of other acts, after an iteration was made.  It is stepped
through its proxy `p`, and through what an enumeration of the proxy and what iterator methods
give. -/
inductive Machine.Schedule (m₁ : Machine) (x : Extensions) (L : Listing) (p r : Ref) :
    List Ref → List NextCall → Machine → Prop where
  | start : Schedule m₁ x L p r [p] [] m₁
  | aside {handles : List Ref} {steps : List NextCall} {m m' : Machine}
      (hrest : Schedule m₁ x L p r handles steps m) (hlater : ReflTransGen Machine.Before m m')
      (halone : m'.heap.object r = m.heap.object r) : Schedule m₁ x L p r handles steps m'
  | enumerate {handles : List Ref} {steps : List NextCall} {m m' : Machine} {h : Ref} (n : Nat)
      (hrest : Schedule m₁ x L p r handles steps m)
      (hrun : (engine n).enumerate p m = .ok h m') :
      Schedule m₁ x L p r (h :: handles) steps m'
  | getIterator {handles : List Ref} {steps : List NextCall} {m m' : Machine} {h h' : Ref} (n : Nat)
      (hrest : Schedule m₁ x L p r handles steps m) (hh : h ∈ handles) (hx : m.Pristine x)
      (hrun : (engine (n + 9)).getIterator (.object h) m = .ok h' m') :
      Schedule m₁ x L p r (h' :: handles) steps m'
  | next {handles : List Ref} {steps : List NextCall} {m m' : Machine} {h result : Ref} (n : Nat)
      (hrest : Schedule m₁ x L p r handles steps m) (hh : h ∈ handles) (hx : m.Pristine x)
      (hread : L.keysOnly = false → m.ReadsAside L r (engine (n + 2)))
      (hrun : (engine (n + 4)).iteratorNext h m = .ok result m') :
      Schedule m₁ x L p r handles (steps ++ [⟨h, n + 2, m, result, m'⟩]) m'

/-! ## What calls deliver -/

/-- The position is behind all that the calls have delivered, and none of them reported the end. -/
def Listing.Behind (L : Listing) (r : Ref) (steps : List NextCall) (q : Nat) : Prop :=
  ∀ t ∈ steps, ∃ q', t.position? L r = some q' ∧ q' < q

/-- The positions that are still to come, and whose keys count. -/
def Listing.remaining (L : Listing) (r : Ref) (steps : List NextCall) (h : Heap) : Set Nat :=
  {q | L.Behind r steps q ∧ ∃ k label, L.keys[q]? = some (k, label) ∧ h.counts L.object k = true}

theorem Listing.behind_concat {L : Listing} {r : Ref} {steps : List NextCall} {s : NextCall}
    {q : Nat} :
    L.Behind r (steps ++ [s]) q ↔
      L.Behind r steps q ∧ ∃ q', s.position? L r = some q' ∧ q' < q := by
  unfold Listing.Behind
  simp only [List.mem_append, List.mem_singleton]
  constructor
  · intro hall
    exact ⟨fun t ht => hall t (.inl ht), hall s (.inr rfl)⟩
  · rintro ⟨hsteps, hlast⟩ t (ht | rfl)
    · exact hsteps t ht
    · exact hlast

/-- What the calls of a schedule deliver. -/
structure Listing.Delivered (L : Listing) (r : Ref) (steps : List NextCall) : Prop where
  /-- A call delivers the first position that is still to come and whose key counts then; without
  one it reports the end. -/
  next : ∀ earlier s later, steps = earlier ++ s :: later → ∀ q,
    s.position? L r = some q ↔ IsLeast (L.remaining r earlier s.before.heap) q
  /-- It reports what it delivers. -/
  delivers : ∀ s ∈ steps, L.Delivers (engine s.fuel) r s.before s.result s.after

namespace Listing.Delivered

variable {L : Listing} {r : Ref} {steps : List NextCall}

/-- What a call delivers is behind what was delivered before it. -/
theorem behind (hd : L.Delivered r steps) {earlier later : List NextCall} {s : NextCall}
    (hcut : steps = earlier ++ s :: later) {q : Nat} (hq : s.position? L r = some q) :
    L.Behind r earlier q :=
  ((hd.next earlier s later hcut q).1 hq).1.1

theorem init {s : NextCall} (hd : L.Delivered r (steps ++ [s])) : L.Delivered r steps where
  next earlier t later hcut := hd.next earlier t (later ++ [s]) (by simp [hcut])
  delivers t ht := hd.delivers t (List.mem_append_left _ ht)

theorem concat {s : NextCall} (hd : L.Delivered r steps)
    (hnext : ∀ q, s.position? L r = some q ↔ IsLeast (L.remaining r steps s.before.heap) q)
    (hdelivers : L.Delivers (engine s.fuel) r s.before s.result s.after) :
    L.Delivered r (steps ++ [s]) := by
  refine ⟨fun earlier t later hcut => ?_, fun t ht => ?_⟩
  · rcases concat_cut hcut with ⟨rfl, rfl⟩ | ⟨later', hcut, -⟩
    · exact hnext
    · exact hd.next earlier t later' hcut
  · rcases List.mem_append.1 ht with ht | ht
    · exact hd.delivers t ht
    · rw [List.mem_singleton.1 ht]
      exact hdelivers

/-- **Positions are delivered in order, each at most once.** -/
theorem increasing (hd : L.Delivered r steps) :
    (steps.filterMap (NextCall.position? L r)).Pairwise (· < ·) := by
  induction steps using List.reverseRecOn with
  | nil => exact .nil
  | append_singleton steps s ih =>
    rw [List.filterMap_append, List.pairwise_append]
    refine ⟨ih hd.init, ?_, fun a ha b hb => ?_⟩
    · cases hs : s.position? L r <;> simp [hs]
    · obtain ⟨t, ht, hposition⟩ := List.mem_filterMap.1 ha
      have hb : s.position? L r = some b := by simpa using hb
      obtain ⟨q, hq, hlt⟩ := hd.behind rfl hb t ht
      rw [hposition] at hq
      cases hq
      exact hlt

/-- **After the end every call reports the end.** -/
theorem ended (hd : L.Delivered r steps) {earlier later : List NextCall} {s t : NextCall}
    (hcut : steps = earlier ++ s :: later) (hs : s.position? L r = none) (ht : t ∈ later) :
    t.position? L r = none := by
  obtain ⟨between, rest, rfl⟩ := List.append_of_mem ht
  cases hq : t.position? L r with
  | none => rfl
  | some q =>
    have hcut' : steps = (earlier ++ s :: between) ++ t :: rest := by simp [hcut]
    obtain ⟨q', hsome, -⟩ := hd.behind hcut' hq s (by simp)
    rw [hs] at hsome
    cases hsome

/-- **Where every key counts, every position is delivered.** -/
theorem all_positions (hd : L.Delivered r steps)
    (hcounts : ∀ s ∈ steps, ∀ k, s.before.heap.counts L.object k = true) {i : Nat} {s : NextCall}
    (hs : steps[i]? = some s) :
    s.position? L r = if i < L.keys.length then some i else none := by
  induction i using Nat.strong_induction_on generalizing s with
  | _ i ih =>
    obtain ⟨hi, hget⟩ := List.getElem?_eq_some_iff.1 hs
    have hcut : steps = steps.take i ++ s :: steps.drop (i + 1) := by
      rw [← hget, List.getElem_cons_drop, List.take_append_drop]
    have hnext := hd.next _ s _ hcut
    -- what is behind all that was delivered before is behind each position that comes earlier
    have hafter {j q : Nat} (hj : j < i) (hlt : j < L.keys.length)
        (hq : L.Behind r (steps.take i) q) : j < q := by
      have hposition := ih j hj (List.getElem?_eq_getElem (by omega))
      obtain ⟨q', hq', hlt'⟩ := hq steps[j] (List.mem_take_iff_getElem.2 ⟨j, by omega, rfl⟩)
      rw [hposition, if_pos hlt] at hq'
      cases hq'
      exact hlt'
    split
    · next hlt =>
      refine (hnext i).2 ⟨⟨fun t ht => ?_, ?_⟩, fun q hq => ?_⟩
      · obtain ⟨j, hj, rfl⟩ := List.mem_take_iff_getElem.1 ht
        have hj : j < i := by omega
        refine ⟨j, ?_, hj⟩
        rw [ih j hj (List.getElem?_eq_getElem (by omega)), if_pos (by omega)]
      · exact ⟨L.keys[i].1, L.keys[i].2, List.getElem?_eq_getElem hlt,
          hcounts s (List.mem_of_getElem? hs) _⟩
      · by_contra hlow
        have hlast := hafter (j := i - 1) (by omega) (by omega) hq.1
        omega
    · next hge =>
      cases hq : s.position? L r with
      | none => rfl
      | some q =>
        obtain ⟨⟨hbehind, k, label, hkey, -⟩, -⟩ := (hnext q).1 hq
        obtain ⟨hq', -⟩ := List.getElem?_eq_some_iff.1 hkey
        have hlast := hafter (j := L.keys.length - 1) (by omega) (by omega) hbehind
        omega

end Listing.Delivered

/-! ## The cursor -/

section Cursor

variable {L : Listing} {r : Ref} {m m' : Machine} {source : IterationSource} {cursor : Cursor}

/-- The next key that counts is the first one from the cursor on. -/
theorem Cursor.nextSlot?_eq_some_iff {h : Heap} {q : Nat} :
    cursor.nextSlot? (L.standing h) = some q ↔
      IsLeast {q | (∃ position, cursor.position? = some position ∧ position ≤ q) ∧
        ∃ k label, L.keys[q]? = some (k, label) ∧ h.counts L.object k = true} q := by
  have hfound {q : Nat} (hq : cursor.nextSlot? (L.standing h) = some q) :
      IsLeast {q | (∃ position, cursor.position? = some position ∧ position ≤ q) ∧
        ∃ k label, L.keys[q]? = some (k, label) ∧ h.counts L.object k = true} q := by
    obtain ⟨position, hposition, hnext⟩ := Option.bind_eq_some_iff.1 hq
    obtain ⟨hle, ⟨e, he⟩, hfirst⟩ := nextSlot?_eq_some hnext
    refine ⟨⟨⟨position, hposition, hle⟩, Listing.standing_eq_some he⟩, ?_⟩
    rintro q' ⟨⟨position', hposition', hle'⟩, k, label, hkey, hcounts⟩
    rw [hposition] at hposition'
    cases hposition'
    exact hfirst q' _ hle' (Listing.standing_of_counts hkey hcounts)
  refine ⟨hfound, fun hleast => ?_⟩
  cases hnext : cursor.nextSlot? (L.standing h) with
  | some q' => rw [(hfound hnext).unique hleast]
  | none =>
    obtain ⟨⟨position, hposition, hle⟩, k, label, hkey, hcounts⟩ := hleast.1
    rw [Cursor.nextSlot?, hposition] at hnext
    have hlt := nextSlot?_eq_none hnext (Listing.standing_of_counts hkey hcounts)
    omega

/-- A step moves the cursor and leaves the rest of the iteration object alone. -/
theorem Listing.Delivers.object {eng : Engine} {result : Ref}
    (h : L.Delivers eng r m result m') (hkind : m.heap.kind r = .iterator source cursor)
    (hread : L.keysOnly = false → m.ReadsAside L r eng) :
    m'.heap.object r =
      { m.heap.object r with kind := .iterator source (cursor.past (L.standing m.heap)) } := by
  have hahead : m.ahead? L r = cursor.nextSlot? (L.standing m.heap) := by
    unfold Machine.ahead?
    rw [hkind]
  have hmoved {cursor' : Cursor} {m₂ : Machine} (hgrown : m₂.Grown m')
      (hsame : m₂.heap.object r = (m.moved r cursor').heap.object r) :
      m'.heap.object r = { m.heap.object r with kind := .iterator source cursor' } := by
    have hobject := hsame.trans (Machine.object_moved_self hkind cursor')
    have hlive : r.index < m₂.size := by
      refine Heap.live_of_kind fun hordinary => ?_
      have hkind₂ : m₂.heap.kind r = .iterator source cursor' := by
        unfold Heap.kind
        rw [hobject]
      rw [hkind₂] at hordinary
      cases hordinary
    exact (hgrown.object hlive).trans hobject
  unfold Cursor.past
  cases h with
  | finished hnext hgrown =>
    rw [← hahead, hnext]
    exact hmoved hgrown rfl
  | key hnext hkey _ hgrown =>
    rw [← hahead, hnext]
    exact hmoved hgrown rfl
  | entry hnext hkey honly hget hgrown =>
    rw [← hahead, hnext]
    exact hmoved hgrown (hread honly _ _ _ _ _ hnext hkey hget)

section Call

variable {steps : List NextCall} {s : NextCall}
  (hbehind : ∀ q, L.Behind r steps q ↔ ∃ position, cursor.position? = some position ∧ position ≤ q)
  (hkind : s.before.heap.kind r = .iterator source cursor)

include hbehind hkind

/-- The cursor stands where the positions that are still to come begin, so a call delivers the first
of them that counts. -/
theorem Listing.position?_eq_some_iff (q : Nat) :
    s.position? L r = some q ↔ IsLeast (L.remaining r steps s.before.heap) q := by
  unfold NextCall.position? Machine.ahead? Listing.remaining
  simp only [hkind, hbehind]
  exact Cursor.nextSlot?_eq_some_iff

/-- After the call the cursor stands there again. -/
theorem Listing.behind_past (q : Nat) :
    L.Behind r (steps ++ [s]) q ↔
      ∃ position, (cursor.past (L.standing s.before.heap)).position? = some position ∧
        position ≤ q := by
  have hposition : s.position? L r = cursor.nextSlot? (L.standing s.before.heap) := by
    unfold NextCall.position? Machine.ahead?
    rw [hkind]
  rw [Listing.behind_concat]
  unfold Cursor.past
  rw [← hposition]
  cases hq : s.position? L r with
  | none =>
    constructor
    · rintro ⟨-, q', hsome, -⟩
      cases hsome
    · rintro ⟨position, hsome, -⟩
      cases hsome
  | some q₀ =>
    obtain ⟨⟨hfree, -⟩, -⟩ := (Listing.position?_eq_some_iff hbehind hkind q₀).1 hq
    obtain ⟨position, hposition, hle⟩ := (hbehind q₀).1 hfree
    constructor
    · rintro ⟨-, q', hsome, hlt⟩
      cases hsome
      exact ⟨q₀ + 1, rfl, hlt⟩
    · rintro ⟨position', hsome, hle'⟩
      cases hsome
      exact ⟨(hbehind q).2 ⟨position, hposition, by omega⟩, q₀, rfl, hle'⟩

end Call

end Cursor

/-! ## Operations on one object in a history -/

theorem Machine.Before.operation {m : Machine} (hm : m.Attained) {o : Ref}
    (ho : o.index < m.size) (op : ObjectModel.Operation Nat) (n : Nat) :
    m.Before (Run.final ((engine n).answer
      (.evaluate none (.operation op [.value (.object o)] none)) m)) := by
  refine .answer n _ ?_ hm
  rintro q (⟨frame, hframe, -⟩ | hq)
  · cases hframe
  · obtain ⟨e, he, hq⟩ := Expr.refersTo_operation.1 hq
    rw [List.mem_singleton.1 he, Expr.refersTo_value] at hq
    cases hq
    exact ho

/-- An operation is evaluated on its operands. -/
theorem engine_evaluate_operation (op : Operation Nat) (operands : List Expr) (n : Nat) :
    (engine (n + 2)).answer (.evaluate none (.operation op operands none)) =
      (engine (n + 1)).operate ((engine (n + 1)).operandsOf none operands) op := by
  have hstore (result : Result) : Engine.store none result = pure () := by cases result <;> rfl
  show (engine (n + 1)).evaluate none (.operation op operands none) = _
  simp only [Engine.evaluate, hstore, pure_bind, bind_pure]

/-- What an operation on an object leaves comes later in the history. -/
theorem Machine.Before.operated {m m' : Machine} (hm : m.Attained) {o : Ref} (ho : o.index < m.size)
    {op : ObjectModel.Operation Nat} {n : Nat} {result : Result}
    (hrun : (engine (n + 1)).operate ((engine (n + 1)).operandsOf none [.value (.object o)]) op m =
      .ok result m') : m.Before m' := by
  have hbefore := Machine.Before.operation hm ho op (n + 2)
  rwa [engine_evaluate_operation, hrun] at hbefore

theorem Machine.Before.iteratorNext {m m' : Machine} (hm : m.Attained) {h result : Ref}
    (hh : h.index < m.size) {n : Nat}
    (hrun : (engine (n + 1)).iteratorNext h m = .ok result m') : m.Before m' := by
  have hoperate : (engine (n + 1)).operate
      ((engine (n + 1)).operandsOf none [.value (.object h)]) (.iterate (.next 0)) m =
      .ok (.value (.object result)) m' := Run.bind_ok hrun
  exact .operated hm hh hoperate

theorem Machine.Before.newIteration {m m' : Machine} (hm : m.Attained) {o p : Ref}
    (ho : o.index < m.size) {keysOnly : Bool} {n : Nat}
    (hrun : (engine (n + 1)).newIteration (.object o) keysOnly m = .ok p m') : m.Before m' := by
  have hoperate : (engine (n + 1)).operate
      ((engine (n + 1)).operandsOf none [.value (.object o)])
      (.extend (.iterationObject 0 keysOnly)) m = .ok (.value (.object p)) m' := Run.bind_ok hrun
  exact .operated hm ho hoperate

/-! ## Acts beside an iteration -/

section Acts

variable {m₁ m : Machine} {x : Extensions} {L : Listing} {p r o : Ref} {handles : List Ref}
  {steps : List NextCall} {k : Key} {n : Nat}

theorem Machine.object_revised (hne : r ≠ o) (revision : Option Object) :
    (m.revised o revision).heap.object r = m.heap.object r := by
  cases revision with
  | none => rfl
  | some a =>
    show (m.heap.modify o fun _ => a).object r = _
    rw [Heap.object_modify, if_neg fun hsame => hne hsame.1]

/-- The read of a data property does nothing else. -/
theorem Machine.readsAside_of_data (hproxy : (m.heap.object L.object).isProxy = false)
    (hne : L.object ≠ r)
    (hdata : ((m.ahead? L r).bind (L.keys[·]?)).all fun e =>
      (((m.heap.object L.object).ownDescriptor e.1).bind Descriptor.value).isSome) :
    m.ReadsAside L r (engine (n + 2)) := by
  intro q k label v m₂ hq hkey hget
  have hobject := Machine.object_moved hne m (.active (q + 1))
  rw [hq, Option.bind_some, hkey, Option.all_some] at hdata
  obtain ⟨v', hv'⟩ := Option.isSome_iff_exists.1 hdata
  obtain ⟨d, hd, hv'⟩ := Option.bind_eq_some_iff.1 hv'
  rw [← hobject] at hproxy hd
  have hread : (engine (n + 2)).get L.object k (m.moved r (.active (q + 1))) =
      .ok v' (m.moved r (.active (q + 1))) := engine_getFor_data hproxy hd hv'
  cases hget.symm.trans hread
  rfl

namespace Machine.Schedule

variable (hrest : m₁.Schedule x L p r handles steps m) (hm : m.Attained)
  (ho : (m.heap.object o).Ordinary) (hne : r ≠ o)

include hrest hm ho hne

/-- Properties of an ordinary object may be added and redefined. -/
theorem define {d : Descriptor}
    (hlive : ∀ q, refers (Method.defineOwnProperty o k d) q → q.index < m.size) :
    m₁.Schedule x L p r handles steps
      (Run.final ((engine (n + 1)).defineOwnProperty o k d m)) := by
  refine .aside hrest (.single (.answer (n + 1) _ hlive hm)) ?_
  show (Run.final ((engine (n + 1)).defineOwnProperty o k d m)).heap.object r = _
  rw [← hostedEngine_none, hosted_defineOwnProperty ho, reviseObject_revised]
  exact Machine.object_revised hne _

/-- Properties of an ordinary object may be removed. -/
theorem delete (hlive : o.index < m.size) :
    m₁.Schedule x L p r handles steps (Run.final ((engine (n + 1)).deleteProperty o k m)) := by
  have hrefers : ∀ q, refers (Method.delete o k) q → q.index < m.size := by
    rintro q rfl
    exact hlive
  refine .aside hrest (.single (.answer (n + 1) _ hrefers hm)) ?_
  show (Run.final ((engine (n + 1)).deleteProperty o k m)).heap.object r = _
  rw [← hostedEngine_none, hosted_deleteProperty ho, reviseObject_revised]
  exact Machine.object_revised hne _

end Machine.Schedule

end Acts

/-! ## The course of an iteration -/

/-- An iteration in the course of a schedule. -/
structure Machine.Course (m : Machine) (x : Extensions) (L : Listing) (p r : Ref)
    (source : IterationSource) (handles : List Ref) (steps : List NextCall) (cursor : Cursor) :
    Prop where
  attained : m.Attained
  iterates : m.Iterates x p r source cursor
  older : L.object.index < r.index
  lists : m.heap.Lists L source
  handles : ∀ h ∈ handles, h = p ∨ h = r
  delivered : L.Delivered r steps
  listed : ∀ s ∈ steps, s.before.heap.Lists L source
  /-- The cursor stands behind all that has been delivered. -/
  behind : ∀ q, L.Behind r steps q ↔ ∃ position, cursor.position? = some position ∧ position ≤ q

namespace Machine.Course

variable {m m' : Machine} {x : Extensions} {L : Listing} {p r : Ref} {source : IterationSource}
  {handles : List Ref} {steps : List NextCall} {cursor : Cursor} {h : Ref} {n : Nat}

section Facts

variable (hc : m.Course x L p r source handles steps cursor)

include hc

theorem ne : L.object ≠ r := by
  intro hsame
  have holder := hc.older
  rw [hsame] at holder
  exact Nat.lt_irrefl _ holder

theorem live : L.object.index < m.size :=
  Nat.lt_trans hc.older (Engine.live_of_iterator hc.iterates.kind)

theorem handle_live (hh : h ∈ handles) : h.index < m.size := by
  rcases hc.handles h hh with rfl | rfl
  · exact Heap.live_of_kind (by simp [hc.iterates.proxy])
  · exact Engine.live_of_iterator hc.iterates.kind

/-- The next method of every handle makes one step of the iteration object. -/
theorem iteratorNext (hh : h ∈ handles) (hx : m.Pristine x) (n : Nat) :
    (engine (n + 4)).iteratorNext h m = (engine (n + 2)).advance r m :=
  hc.iterates.iteratorNext (hc.handles h hh) hx n

/-- The iterator method of every handle gives the handle. -/
theorem getIterator (hh : h ∈ handles) (hx : m.Pristine x) (n : Nat) :
    (engine (n + 9)).getIterator (.object h) m = .ok h m :=
  hc.iterates.getIterator (hc.handles h hh) hx
    (hc.attained.nextSymbol_ne hc.iterates.extensions) n

/-- What happens beside the calls changes nothing of the course. -/
theorem aside (hlater : ReflTransGen Machine.Before m m')
    (halone : m'.heap.object r = m.heap.object r) :
    m'.Course x L p r source handles steps cursor := by
  have honward := onward_of_before hc.attained hlater
  have hextensions := extensions_of_before hc.attained hlater hc.iterates.extensions
  refine { hc with
    attained := .of_before hc.attained hlater
    iterates := hc.iterates.onward honward hextensions ?_
    lists := hc.lists.of_onward hc.live honward }
  have hkind : (m.heap.object r).kind = .iterator source cursor := hc.iterates.kind
  rw [halone, ← hkind]

/-- **A call delivers the next position, whichever way it is made.** -/
theorem next (hh : h ∈ handles) (hx : m.Pristine x)
    (hread : L.keysOnly = false → m.ReadsAside L r (engine (n + 2))) {result : Ref}
    (hrun : (engine (n + 4)).iteratorNext h m = .ok result m') :
    m'.Course x L p r source handles (steps ++ [⟨h, n + 2, m, result, m'⟩])
      (cursor.past (L.standing m.heap)) := by
  have hkind := hc.iterates.kind
  have hdelivers : L.Delivers (engine (n + 2)) r m result m' := by
    rw [hc.iteratorNext hh hx] at hrun
    exact Engine.delivers_of_advance hkind hc.lists hc.ne hrun
  have hbefore : ReflTransGen Machine.Before m m' :=
    .single (.iteratorNext hc.attained (hc.handle_live hh) hrun)
  have honward := onward_of_before hc.attained hbefore
  have hextensions := extensions_of_before hc.attained hbefore hc.iterates.extensions
  exact
    { attained := .of_before hc.attained hbefore
      iterates := hc.iterates.onward honward hextensions (hdelivers.object hkind hread)
      older := hc.older
      lists := hc.lists.of_onward hc.live honward
      handles := hc.handles
      delivered :=
        hc.delivered.concat (Listing.position?_eq_some_iff hc.behind hkind) hdelivers
      listed := by
        intro s hs
        rcases List.mem_append.1 hs with hs | hs
        · exact hc.listed s hs
        · rw [List.mem_singleton.1 hs]
          exact hc.lists
      behind := Listing.behind_past hc.behind hkind }

end Facts

/-- **The course of every schedule.** -/
theorem of_schedule {m₁ : Machine} (hstart : m₁.Course x L p r source [p] [] .fresh)
    (h : m₁.Schedule x L p r handles steps m) :
    ∃ cursor, m.Course x L p r source handles steps cursor := by
  induction h with
  | start => exact ⟨.fresh, hstart⟩
  | aside _ hlater halone ih =>
    obtain ⟨cursor, hc⟩ := ih
    exact ⟨cursor, hc.aside hlater halone⟩
  | enumerate n _ hrun ih =>
    obtain ⟨cursor, hc⟩ := ih
    cases hrun.symm.trans (hc.iterates.enumerate _)
    refine ⟨cursor, { hc with handles := fun h hh => ?_ }⟩
    rcases List.mem_cons.1 hh with rfl | hh
    · exact .inr rfl
    · exact hc.handles h hh
  | getIterator n _ hh hx hrun ih =>
    obtain ⟨cursor, hc⟩ := ih
    cases hrun.symm.trans (hc.getIterator hh hx n)
    refine ⟨cursor, { hc with handles := fun h hh' => ?_ }⟩
    rcases List.mem_cons.1 hh' with rfl | hh'
    · exact hc.handles _ hh
    · exact hc.handles h hh'
  | next n _ hh hx hread hrun ih =>
    obtain ⟨cursor, hc⟩ := ih
    exact ⟨_, hc.next hh hx hread hrun⟩

end Machine.Course

/-- A new iteration starts its course. -/
theorem Machine.Course.of_newIteration {m₀ : Machine} (hm : m₀.Attained) {o : Ref}
    (hlive : o.index < m₀.size) (hproxy : (m₀.heap.object o).isProxy = false) (keysOnly : Bool)
    (n : Nat) :
    ∃ x p r source m₁, (engine (n + 2)).newIteration (.object o) keysOnly m₀ = .ok p m₁ ∧
      m₀.heap.Lists (m₀.heap.listing o keysOnly) source ∧
      m₁.Course x (m₀.heap.listing o keysOnly) p r source [p] [] .fresh := by
  obtain ⟨source, hsource, hlists⟩ := iterationSource_apply hproxy
    (fun length writable hkind => (hm.regular.objects o length writable hkind).2.2) keysOnly n
  obtain ⟨x, p, r, m₁, hnew, hiterates, hr⟩ := newEnumerable_apply source m₀
  have hrun : (engine (n + 2)).newIteration (.object o) keysOnly m₀ = .ok p m₁ := by
    rw [Engine.newIteration, Run.bind_ok hsource]
    exact hnew
  have hbefore : ReflTransGen Machine.Before m₀ m₁ := .single (.newIteration hm hlive hrun)
  refine ⟨x, p, r, source, m₁, hrun, hlists, ?_⟩
  exact
    { attained := .of_before hm hbefore
      iterates := hiterates
      older := Nat.lt_of_lt_of_le hlive hr
      lists := hlists.of_onward hlive (onward_of_before hm hbefore)
      handles := fun h hh => .inl (List.mem_singleton.1 hh)
      delivered := ⟨fun earlier s later hcut => by simp at hcut, fun s hs => by simp at hs⟩
      listed := fun s hs => by simp at hs
      behind := fun q => by simp [Listing.Behind, Cursor.position?] }

/-- **Every iteration delivers what was listed when it was made.**  An iteration over an object that
is no proxy can be stepped through the proxy that stands for it, through what an enumeration gives
and through what iterator methods give.  Over every schedule of such calls and other acts, the calls
deliver the listed positions in order and each at most once, the first one left whose key counts
when the call is made; the keys of an array all count.  After the end every call reports the end.
All ways stay open, and a call returns unless the read of its value does not. -/
theorem iteration_delivers_listed {m₀ : Machine} (hm : m₀.Attained) {o : Ref}
    (hlive : o.index < m₀.size) (hproxy : (m₀.heap.object o).isProxy = false)
    (keysOnly : Bool) {L : Listing} (hL : m₀.heap.listing o keysOnly = L) (n : Nat) :
    ∃ x p r m₁, (engine (n + 2)).newIteration (.object o) keysOnly m₀ = .ok p m₁ ∧
      m₁.extensions = some x ∧ m₁.Attained ∧
      ∀ handles steps m, m₁.Schedule x L p r handles steps m →
        m.Attained ∧ L.Delivered r steps ∧
        (steps.filterMap (NextCall.position? L r)).Pairwise (· < ·) ∧
        (∀ earlier s later, steps = earlier ++ s :: later → s.position? L r = none →
          ∀ t ∈ later, t.position? L r = none) ∧
        (∀ length writable, m₀.heap.kind o = .array length writable → ∀ i s, steps[i]? = some s →
          s.position? L r = if i < length then some i else none) ∧
        (∀ i, (engine i).enumerate p m = .ok r m) ∧
        (m.Pristine x → ∀ h ∈ handles, ∀ i,
          (engine (i + 9)).getIterator (.object h) m = .ok h m ∧
          (engine (i + 4)).iteratorNext h m = (engine (i + 2)).advance r m ∧
          ((∀ q k label, m.ahead? L r = some q → L.keys[q]? = some (k, label) →
              L.keysOnly = false →
              ∃ v m₂, (engine (i + 2)).get L.object k (m.moved r (.active (q + 1))) = .ok v m₂) →
            ∃ result m', (engine (i + 4)).iteratorNext h m = .ok result m')) := by
  subst hL
  obtain ⟨x, p, r, source, m₁, hrun, hlists, hstart⟩ :=
    Machine.Course.of_newIteration hm hlive hproxy keysOnly n
  refine ⟨x, p, r, m₁, hrun, hstart.iterates.extensions, hstart.attained,
    fun handles steps m hschedule => ?_⟩
  obtain ⟨cursor, hc⟩ := Machine.Course.of_schedule hstart hschedule
  refine ⟨hc.attained, hc.delivered, hc.delivered.increasing,
    fun earlier s later hcut hs t ht => hc.delivered.ended hcut hs ht,
    fun length writable hkind i s hs => ?_, fun i => hc.iterates.enumerate _,
    fun hx h hh i => ⟨hc.getIterator hh hx i, hc.iteratorNext hh hx i, fun hread => ?_⟩⟩
  · have hcounts : ∀ s ∈ steps, ∀ k, s.before.heap.counts o k = true := by
      intro s hs k
      have harray : (m₀.heap.object o).isArray = true := by
        have hkind : (m₀.heap.object o).kind = .array length writable := hkind
        simp [Object.isArray, hkind]
      exact Heap.counts_of_isArray ((hc.listed s hs).isArray_iff.2 (hlists.isArray_iff.1 harray)) k
    have hall := hc.delivered.all_positions hcounts hs
    rw [Heap.listing_array hkind] at hall ⊢
    simpa [positionsBelow] using hall
  · rw [hc.iteratorNext hh hx]
    exact Engine.advance_returns hc.iterates.kind hc.lists hc.ne hread

/-! ### An object with three properties -/

/-- An object with the properties `a`, `b` and `c`. -/
def Machine.threeProperties : Machine :=
  Run.final ((engine 9).answer (.evaluate none (.operation
    (.create (.object none [(0, 1), (2, 3), (4, 5)]))
    [.value (.text "a"), .value (.ofNat 1), .value (.text "b"), .value (.ofNat 2),
      .value (.text "c"), .value (.ofNat 3)] none)) (Session.initialMachine ⟨false, false⟩))

theorem Machine.attained_threeProperties : Machine.threeProperties.Attained := by
  refine .evaluate 9 (fun r hr => ?_) (.initial _)
  simp [Expr.refersTo_operation, Expr.refersTo_value, Value.ofNat] at hr

/-- The property `b` is removed. -/
def Machine.withoutSecond (m : Machine) : Machine :=
  Run.final ((engine 1).deleteProperty ⟨74⟩ "b" m)

/-- The property `d` is added. -/
def Machine.withFourth (m : Machine) : Machine :=
  Run.final ((engine 1).defineOwnProperty ⟨74⟩ "d"
    { value := some (.ofNat 4), enumerable := some true } m)

def Machine.called (m : Machine) (h : Ref) : Machine := Run.final ((engine 4).iteratorNext h m)

/-- A call comes to the position and gives a result, and it reads a data property at most. -/
def Machine.Calls (m : Machine) (x : Extensions) (L : Listing) (h r : Ref) (q : Option Nat) :
    Prop :=
  m.Pristine x ∧ (m.heap.object L.object).isProxy = false ∧ m.ahead? L r = q ∧
    ((q.bind (L.keys[·]?)).all fun e =>
      (((m.heap.object L.object).ownDescriptor e.1).bind Descriptor.value).isSome) = true ∧
    (Run.given? ((engine 4).iteratorNext h m)).isSome = true

instance (m : Machine) (x : Extensions) (L : Listing) (h r : Ref) (q : Option Nat) :
    Decidable (m.Calls x L h r q) := inferInstanceAs (Decidable (_ ∧ _))

instance (o : Object) : Decidable o.Ordinary := inferInstanceAs (Decidable (_ ∧ _))

theorem Machine.Schedule.step {m₁ m : Machine} {x : Extensions} {L : Listing} {p r h : Ref}
    {handles : List Ref} {steps : List NextCall} {q : Option Nat}
    (hrest : m₁.Schedule x L p r handles steps m) (hh : h ∈ handles) (hne : L.object ≠ r)
    (hs : m.Calls x L h r q) :
    ∃ s : NextCall, s.handle = h ∧ s.position? L r = q ∧
      m₁.Schedule x L p r handles (steps ++ [s]) (m.called h) := by
  obtain ⟨hx, hproxy, hahead, hdata, hgiven⟩ := hs
  obtain ⟨result, hresult⟩ := Option.isSome_iff_exists.1 hgiven
  rw [← hahead] at hdata
  exact ⟨⟨h, 2, m, result, m.called h⟩, rfl, hahead, .next 0 hrest hh hx
    (fun _ => Machine.readsAside_of_data hproxy hne hdata) (Run.eq_ok_of_given? hresult)⟩

/-- The property that is removed after the first call is passed over, the one that is added is not
delivered.  The first call is made on the proxy, the second on what its enumeration gives, the third
on what the iterator method of that gives. -/
theorem iteration_delivers_listed_withFourth :
    (Machine.threeProperties.Attained ∧ 74 < Machine.threeProperties.size ∧
      (Machine.threeProperties.heap.object ⟨74⟩).isProxy = false ∧
      ∀ length writable, Machine.threeProperties.heap.kind ⟨74⟩ ≠ .array length writable) ∧
    ∃ x p r m₁ handles steps m,
      (engine 2).newIteration (.object ⟨74⟩) false Machine.threeProperties = .ok p m₁ ∧
      m₁.Schedule x (Machine.threeProperties.heap.listing ⟨74⟩ false) p r handles steps m ∧
      steps.map NextCall.handle = [p, r, r] ∧
      steps.map (NextCall.position? (Machine.threeProperties.heap.listing ⟨74⟩ false) r) =
        [some 0, some 2, none] ∧
      (Machine.threeProperties.heap.listing ⟨74⟩ false).Delivered r steps := by
  have hfacts :
      let m₀ := Machine.threeProperties
      let L := m₀.heap.listing ⟨74⟩ false
      let m₁ := Run.final ((engine 2).newIteration (.object ⟨74⟩) false m₀)
      let m₂ := m₁.called ⟨77⟩
      let m₃ := m₂.withoutSecond.withFourth
      (74 < m₀.size ∧ (m₀.heap.object ⟨74⟩).Ordinary) ∧
      (Run.given? ((engine 2).newIteration (.object ⟨74⟩) false m₀) = some ⟨77⟩ ∧
        Run.given? ((engine 0).enumerate ⟨77⟩ m₁) = some ⟨75⟩) ∧
      (74 < m₂.size ∧ (m₂.heap.object ⟨74⟩).Ordinary) ∧
      (74 < m₂.withoutSecond.size ∧ (m₂.withoutSecond.heap.object ⟨74⟩).Ordinary) ∧
      ∀ x ∈ m₁.extensions, m₁.Calls x L ⟨77⟩ ⟨75⟩ (some 0) ∧ m₃.Calls x L ⟨75⟩ ⟨75⟩ (some 2) ∧
        (m₃.called ⟨75⟩).Calls x L ⟨75⟩ ⟨75⟩ none := by
    decide +kernel
  have hm := Machine.attained_threeProperties
  generalize Machine.threeProperties = m₀ at *
  obtain ⟨⟨hlive, ho⟩, ⟨hgiven, henumerated⟩, ⟨hlive₂, ho₂⟩, ⟨hlive₃, ho₃⟩, hsteps⟩ := hfacts
  have hkind (length : Nat) (writable : Bool) : m₀.heap.kind ⟨74⟩ ≠ .array length writable :=
    ho.kind_ne_array length writable
  refine ⟨⟨hm, hlive, ho.1, hkind⟩, ?_⟩
  obtain ⟨x, p, r, m₁, hrun, hx, -, hall⟩ := iteration_delivers_listed hm hlive ho.1 false rfl 0
  cases hrun.symm.trans (Run.eq_ok_of_given? hgiven)
  generalize Run.final ((engine 2).newIteration (.object ⟨74⟩) false m₀) = m₁ at *
  obtain ⟨-, -, -, -, -, henumerate, -⟩ := hall _ _ _ .start
  obtain rfl : r = ⟨75⟩ := by
    rw [henumerate 0] at henumerated
    exact Option.some.inj henumerated
  obtain ⟨hs₁, hs₂, hs₃⟩ := hsteps x hx
  have hne : (⟨74⟩ : Ref) ≠ ⟨75⟩ := by decide
  obtain ⟨s₁, hhandle₁, hposition₁, h₁⟩ := Machine.Schedule.start.step (.head _) hne hs₁
  -- the object is changed
  have h₂ := h₁.delete (n := 0) (k := "b") (hall _ _ _ h₁).1 ho₂ hne.symm hlive₂
  have h₃ : m₁.Schedule x (m₀.heap.listing ⟨74⟩ false) ⟨77⟩ ⟨75⟩ [⟨77⟩] [s₁]
      (m₁.called ⟨77⟩).withoutSecond.withFourth := by
    refine h₂.define (hall _ _ _ h₂).1 ho₃ hne.symm fun q hq => ?_
    rcases hq with rfl | ⟨v, hvalue, hq⟩ | ⟨_, hget, -⟩ | ⟨_, hset, -⟩
    · exact hlive₃
    · cases hvalue
      cases hq
    · cases hget
    · cases hset
  -- the proxy is enumerated
  obtain ⟨-, -, -, -, -, henumerate, -⟩ := hall _ _ _ h₃
  obtain ⟨s₂, hhandle₂, hposition₂, h₄⟩ :=
    (h₃.enumerate 0 (henumerate 0)).step (.head _) hne hs₂
  -- the iterator method is called on what that gave
  obtain ⟨-, -, -, -, -, -, hopen⟩ := hall _ _ _ h₄
  obtain ⟨hiterator, -⟩ := hopen hs₃.1 ⟨75⟩ (.head _) 0
  obtain ⟨s₃, hhandle₃, hposition₃, h₅⟩ :=
    (h₄.getIterator 0 (.head _) hs₃.1 hiterator).step (.head _) hne hs₃
  refine ⟨x, ⟨77⟩, ⟨75⟩, m₁, _, _, _, hrun, h₅, ?_, ?_, (hall _ _ _ h₅).2.1⟩
  · simp [hhandle₁, hhandle₂, hhandle₃]
  · simp [hposition₁, hposition₂, hposition₃]

end ObjectModel
