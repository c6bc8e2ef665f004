import ObjectModel.Proofs.History
import ObjectModel.Proofs.Members
import ObjectModel.Session

/-!
# Iterators beside edits

The members of a map or a set are edited while any number of iterators walk over it.  An
interleaving is a run of edits, steps and whatever else leaves the collection and its iterators
alone (`Machine.Interleaving`).  What a fresh iterator has handed out so far, and what is still
ahead of it, is told by `Walked`: the slots below its cursor that hold a member are those that it
has handed out.  Every act keeps that, since a slot is never used twice.

So an iterator hands out slots in ascending order, each with the member that stands in it then, and
when it first reports the end it has handed out every member that is there, once
(`iterators_visit_members`).
-/

namespace ObjectModel

/-- The member in a slot of a collection. -/
def Machine.memberAt (m : Machine) (c : Ref) (slot : Nat) : Option Element :=
  (m.heap.kind c).members[slot]?.join

theorem Machine.memberAt_eq_some {m : Machine} {c : Ref} {slot : Nat} {e : Element} :
    m.memberAt c slot = some e ↔ (m.heap.kind c).members[slot]? = some (some e) :=
  Option.join_eq_some_iff

theorem Machine.memberAt_congr {m m' : Machine} {c : Ref} (hc : m'.heap.kind c = m.heap.kind c)
    (slot : Nat) : m'.memberAt c slot = m.memberAt c slot := by
  unfold memberAt
  rw [hc]

/-- An iterator over a collection. -/
def Machine.IteratesOver (m : Machine) (c r : Ref) : Prop :=
  ∃ source cursor, m.heap.kind r = .iterator source cursor ∧ m.heap.Walks c source

/-- A step of an iterator, with its result and the machines before and after it. -/
structure IterationStep where
  iterator : Ref
  before : Machine
  result : Ref
  after : Machine

/-- The slot of a collection that an iterator comes to next. -/
def Machine.slotAhead? (m : Machine) (c r : Ref) : Option Nat :=
  match m.heap.kind r with
  | .iterator _ cursor => cursor.nextSlot? (m.heap.kind c).members
  | _ => none

/-- The slot that a step hands out; none if it reports the end. -/
def IterationStep.slot? (c : Ref) (s : IterationStep) : Option Nat :=
  s.before.slotAhead? c s.iterator

/-- The steps of one iterator. -/
def stepsOf (r : Ref) (steps : List IterationStep) : List IterationStep :=
  steps.filter fun s => s.iterator = r

/-- The slots that steps hand out. -/
def slotsOf (c : Ref) (steps : List IterationStep) : List Nat :=
  steps.filterMap (IterationStep.slot? c)

/-- A run of edits of a collection, of steps of iterators over it, and of acts that change neither
the collection nor these iterators. -/
inductive Machine.Interleaving (eng : Engine) (c : Ref) (m₀ : Machine) :
    List IterationStep → Machine → Prop where
  | start : Interleaving eng c m₀ [] m₀
  | edit {steps : List IterationStep} {m m' : Machine} (hrest : Interleaving eng c m₀ steps m)
      (edit : Edit) (h : edit.run c m = .ok () m') : Interleaving eng c m₀ steps m'
  | next {steps : List IterationStep} {m m' : Machine} {r result : Ref}
      (hrest : Interleaving eng c m₀ steps m) (hr : m.IteratesOver c r)
      (h : eng.advance r m = .ok result m') :
      Interleaving eng c m₀ (steps ++ [⟨r, m, result, m'⟩]) m'
  | aside {steps : List IterationStep} {m m' : Machine} (hrest : Interleaving eng c m₀ steps m)
      (hcollection : m'.heap.kind c = m.heap.kind c)
      (hiterators : ∀ r, m.IteratesOver c r → m'.heap.kind r = m.heap.kind r) :
      Interleaving eng c m₀ steps m'

/-! ## Edits and steps -/

section Acts

variable {m m' : Machine} {c r : Ref} {source : IterationSource} {cursor : Cursor}

/-- An edit changes the slots of the collection and no other kind. -/
theorem Edit.kinds_of_run {edit : Edit} (h : edit.run c m = .ok () m') :
    (m'.heap.kind c).members = edit.apply (m.heap.kind c).members ∧
      Kind.Turn (m.heap.kind c) (m'.heap.kind c) ∧
      ∀ p, p ≠ c → m'.heap.kind p = m.heap.kind p := by
  obtain ⟨kind, hrun, hmembers, hturn⟩ := run_apply (suits_of_run h)
  rw [h] at hrun
  cases hrun
  have hlive : c.index < m.heap.objects.size := by
    refine Heap.live_of_kind fun hordinary => ?_
    rw [hordinary] at hturn
    cases hturn
  have hnew : (m.heap.modify c fun o => { o with kind }).kind c = kind := by
    show ((m.heap.modify c fun o => { o with kind }).object c).kind = _
    rw [Heap.object_modify, if_pos ⟨rfl, hlive⟩]
  rw [Machine.heap_withHeap, hnew]
  refine ⟨hmembers, hturn, fun p hp => ?_⟩
  show ((m.heap.modify c fun o => { o with kind }).object p).kind = _
  rw [Heap.object_modify, if_neg fun h => hp h.1]
  rfl

theorem Heap.Walks.live (hw : m.heap.Walks c source) : c.index < m.size := by
  refine Heap.live_of_kind fun hordinary => ?_
  cases hw with
  | map data hkind => cases hkind.symm.trans hordinary
  | set data hkind => cases hkind.symm.trans hordinary

/-- A step changes no kind but that of its iterator. -/
theorem Machine.Stepped.kind_of_ne (h : m.Stepped r source cursor m') {p : Ref} (hp : p ≠ r)
    (hlive : p.index < m.size) : m'.heap.kind p = m.heap.kind p :=
  congrArg Object.kind (h.others p hp hlive)

theorem stepped_of_advance {eng : Engine} {result : Ref} (hr : m.IteratesOver c r)
    (hrun : eng.advance r m = .ok result m') :
    m'.heap.kind c = m.heap.kind c ∧
      ∀ p, p ≠ r → p.index < m.size → m'.heap.kind p = m.heap.kind p := by
  obtain ⟨source, cursor, hkind, hw⟩ := hr
  obtain ⟨result', m'', hadvance, hstep, -⟩ := Engine.advance_walks eng hkind hw
  rw [hrun] at hadvance
  cases hadvance
  exact ⟨hstep.kind_of_ne (hw.ne hkind) hw.live, fun p => hstep.kind_of_ne⟩

end Acts

/-! ## What has been handed out -/

/-- What an iterator has handed out in its steps, while its cursor stands where it stands. -/
structure Walked (c r : Ref) (source : IterationSource) (own : List IterationStep) (m : Machine)
    (cursor : Cursor) : Prop where
  kind : m.heap.kind r = .iterator source cursor
  walks : m.heap.Walks c source
  increasing : (slotsOf c own).Pairwise (· < ·)
  reports : ∀ s ∈ own, s.after.heap.Reports s.result ((s.slot? c).bind (s.before.memberAt c)) ∧
    ∀ slot, s.slot? c = some slot → ∃ e, s.before.memberAt c slot = some e
  used : ∀ slot ∈ slotsOf c own, slot < (m.heap.kind c).members.length
  /-- Below the cursor the members that there are have been handed out. -/
  reached : ∀ position, cursor.position? = some position →
    position ≤ (m.heap.kind c).members.length ∧ (∀ s ∈ own, s.slot? c ≠ none) ∧
      (∀ slot ∈ slotsOf c own, slot < position) ∧
      ∀ slot e, slot < position → m.memberAt c slot = some e → slot ∈ slotsOf c own
  exhausted : cursor = .exhausted → ∃ s ∈ own, s.slot? c = none
  /-- What was handed out and is still there has its key. -/
  same : ∀ s ∈ own, ∀ slot e e', s.slot? c = some slot → s.before.memberAt c slot = some e →
    m.memberAt c slot = some e' → e.key? = e'.key?
  /-- At the first end all that is there has been handed out. -/
  complete : ∀ earlier s later, own = earlier ++ s :: later → (∀ t ∈ earlier, t.slot? c ≠ none) →
    s.slot? c = none → ∀ slot e, s.before.memberAt c slot = some e →
      slot ∈ slotsOf c earlier ∧ ∀ t ∈ earlier, t.slot? c = some slot →
        ∀ e', t.before.memberAt c slot = some e' → e'.key? = e.key?

theorem mem_slotsOf {c : Ref} {own : List IterationStep} {slot : Nat} :
    slot ∈ slotsOf c own ↔ ∃ s ∈ own, s.slot? c = some slot := List.mem_filterMap

namespace Walked

variable {m m' : Machine} {c r : Ref} {source : IterationSource} {cursor : Cursor}
  {own : List IterationStep}

theorem start (hkind : m.heap.kind r = .iterator source .fresh) (hw : m.heap.Walks c source) :
    Walked c r source [] m .fresh := by
  have hnone {p : IterationStep → Prop} : ∀ s ∈ ([] : List IterationStep), p s :=
    fun _ hs => absurd hs List.not_mem_nil
  exact
    { kind := hkind
      walks := hw
      increasing := .nil
      reports := hnone
      used := fun _ hslot => absurd hslot List.not_mem_nil
      reached := by
        intro position hposition
        cases hposition
        exact ⟨Nat.zero_le _, hnone, fun _ hslot => absurd hslot List.not_mem_nil,
          fun slot _ hslot => absurd hslot (Nat.not_lt_zero slot)⟩
      exhausted := fun h => Cursor.noConfusion h
      same := hnone
      complete := fun earlier s later h => absurd h.symm (by simp) }

/-- What leaves the kinds alone changes nothing. -/
theorem aside (h : Walked c r source own m cursor) (hc : m'.heap.kind c = m.heap.kind c)
    (hr : m'.heap.kind r = m.heap.kind r) : Walked c r source own m' cursor := by
  have hmember := Machine.memberAt_congr hc
  exact
    { kind := hr.trans h.kind
      walks := h.walks.congr hc
      increasing := h.increasing
      reports := h.reports
      used := by
        rw [hc]
        exact h.used
      reached := by
        simp only [hc, hmember]
        exact h.reached
      exhausted := h.exhausted
      same := by
        simp only [hmember]
        exact h.same
      complete := h.complete }

/-- **An edit puts no member into a slot that has been passed.** -/
theorem edit (h : Walked c r source own m cursor) {edit : Edit}
    (hrun : edit.run c m = .ok () m') : Walked c r source own m' cursor := by
  obtain ⟨hmembers, hturn, hothers⟩ := Edit.kinds_of_run hrun
  have hlength : (m.heap.kind c).members.length ≤ (m'.heap.kind c).members.length := by
    rw [hmembers]
    exact edit.length_le _
  have hkept {slot : Nat} {e : Element} (hslot : slot < (m.heap.kind c).members.length)
      (he : m'.memberAt c slot = some e) :
      ∃ e₀, m.memberAt c slot = some e₀ ∧ e₀.key? = e.key? := by
    rw [Machine.memberAt_eq_some, hmembers] at he
    obtain ⟨e₀, he₀, hkey⟩ := edit.kept he hslot
    exact ⟨e₀, Machine.memberAt_eq_some.2 he₀, hkey⟩
  exact
    { kind := (hothers r (h.walks.ne h.kind).symm).trans h.kind
      walks := h.walks.turn hturn
      increasing := h.increasing
      reports := h.reports
      used := fun slot hslot => Nat.lt_of_lt_of_le (h.used slot hslot) hlength
      reached := by
        intro position hposition
        obtain ⟨hle, hopen, hbelow, hpassed⟩ := h.reached position hposition
        refine ⟨Nat.le_trans hle hlength, hopen, hbelow, fun slot e hslot he => ?_⟩
        obtain ⟨e₀, he₀, -⟩ := hkept (Nat.lt_of_lt_of_le hslot hle) he
        exact hpassed slot e₀ hslot he₀
      exhausted := h.exhausted
      same := by
        intro s hs slot e e' hslot he he'
        have hused := h.used slot (mem_slotsOf.2 ⟨s, hs, hslot⟩)
        obtain ⟨e₀, he₀, hkey⟩ := hkept hused he'
        exact (h.same s hs slot e e₀ hslot he he₀).trans hkey
      complete := h.complete }

/-- A step at the end: all that is there has been handed out. -/
theorem finish (h : Walked c r source own m cursor) {result : Ref}
    (hnext : cursor.nextSlot? (m.heap.kind c).members = none)
    (hstep : m.Stepped r source .exhausted m')
    (hreports : m'.heap.Reports result none) :
    Walked c r source (own ++ [⟨r, m, result, m'⟩]) m' .exhausted := by
  let s : IterationStep := ⟨r, m, result, m'⟩
  have hc : m'.heap.kind c = m.heap.kind c :=
    hstep.kind_of_ne (h.walks.ne h.kind) h.walks.live
  have hmember := Machine.memberAt_congr hc
  have hslot : s.slot? c = none := by
    unfold IterationStep.slot? Machine.slotAhead?
    rw [h.kind]
    exact hnext
  have hslots : slotsOf c (own ++ [s]) = slotsOf c own := by
    simp [slotsOf, hslot]
  have hsteps {t : IterationStep} (ht : t ∈ own ++ [s]) : t ∈ own ∨ t = s := by simpa using ht
  refine
    { kind := hstep.kind
      walks := h.walks.congr hc
      increasing := by rw [hslots]; exact h.increasing
      reports := ?_
      used := by rw [hslots, hc]; exact h.used
      reached := fun position hposition => by cases hposition
      exhausted := fun _ => ⟨s, List.mem_append_right _ (List.mem_singleton.2 rfl), hslot⟩
      same := ?_
      complete := ?_ }
  · intro t ht
    rcases hsteps ht with ht | rfl
    · exact h.reports t ht
    · rw [hslot]
      exact ⟨hreports, fun slot hsome => by cases hsome⟩
  · intro t ht slot e e' hsome he he'
    rcases hsteps ht with ht | rfl
    · exact h.same t ht slot e e' hsome he ((hmember slot).symm.trans he')
    · rw [hslot] at hsome
      cases hsome
  · intro earlier t later hcut hopen hlast slot e he
    rcases concat_cut hcut with ⟨rfl, rfl⟩ | ⟨later', hcut, -⟩
    · cases hposition : cursor.position? with
      | none =>
        -- the iterator was exhausted before, so this is not its first end
        have hexhausted : cursor = .exhausted := by
          cases cursor with
          | exhausted => rfl
          | _ => cases hposition
        obtain ⟨t, ht, hnone⟩ := h.exhausted hexhausted
        exact absurd hnone (hopen t ht)
      | some position =>
        rw [Cursor.nextSlot?, hposition] at hnext
        have hlt := nextSlot?_eq_none hnext (Machine.memberAt_eq_some.1 he)
        refine ⟨(h.reached position hposition).2.2.2 slot e hlt he, fun t ht hsome e' he' => ?_⟩
        exact h.same t ht slot e' e hsome he' he
    · exact h.complete earlier t later' hcut hopen hlast slot e he

/-- A step that hands out a slot. -/
theorem handOut (h : Walked c r source own m cursor) {result : Ref} {slot : Nat}
    (hnext : cursor.nextSlot? (m.heap.kind c).members = some slot)
    (hstep : m.Stepped r source (.active (slot + 1)) m')
    (hreports : m'.heap.Reports result (m.memberAt c slot)) :
    Walked c r source (own ++ [⟨r, m, result, m'⟩]) m' (.active (slot + 1)) := by
  let s : IterationStep := ⟨r, m, result, m'⟩
  have hc : m'.heap.kind c = m.heap.kind c :=
    hstep.kind_of_ne (h.walks.ne h.kind) h.walks.live
  have hmember := Machine.memberAt_congr hc
  have hslot : s.slot? c = some slot := by
    unfold IterationStep.slot? Machine.slotAhead?
    rw [h.kind]
    exact hnext
  have hslots : slotsOf c (own ++ [s]) = slotsOf c own ++ [slot] := by
    simp [slotsOf, hslot]
  have hsteps {t : IterationStep} (ht : t ∈ own ++ [s]) : t ∈ own ∨ t = s := by simpa using ht
  obtain ⟨position, hposition, hfound⟩ := Option.bind_eq_some_iff.1 hnext
  obtain ⟨hahead, ⟨e, he⟩, hfirst⟩ := nextSlot?_eq_some hfound
  obtain ⟨hle, hopen, hbelow, hpassed⟩ := h.reached position hposition
  have hlength : slot < (m.heap.kind c).members.length := (List.getElem?_eq_some_iff.1 he).1
  refine
    { kind := hstep.kind
      walks := h.walks.congr hc
      increasing := ?_
      reports := ?_
      used := ?_
      reached := ?_
      exhausted := fun hactive => by cases hactive
      same := ?_
      complete := ?_ }
  · rw [hslots, List.pairwise_append]
    refine ⟨h.increasing, List.pairwise_singleton _ _, fun a ha b hb => ?_⟩
    rw [List.mem_singleton.1 hb]
    exact Nat.lt_of_lt_of_le (hbelow a ha) hahead
  · intro t ht
    rcases hsteps ht with ht | rfl
    · exact h.reports t ht
    · rw [hslot]
      refine ⟨hreports, fun slot' hsome => ?_⟩
      cases hsome
      exact ⟨e, Machine.memberAt_eq_some.2 he⟩
  · intro slot' hslot'
    rw [hc]
    rw [hslots, List.mem_append, List.mem_singleton] at hslot'
    rcases hslot' with hslot' | rfl
    · exact h.used slot' hslot'
    · exact hlength
  · intro position' hposition'
    cases hposition'
    rw [hslots, hc]
    refine ⟨hlength, fun t ht => ?_, fun slot' hslot' => ?_, fun slot' e' hlt he' => ?_⟩
    · rcases hsteps ht with ht | rfl
      · exact hopen t ht
      · simp [hslot]
    · rw [List.mem_append, List.mem_singleton] at hslot'
      rcases hslot' with hslot' | rfl
      · have := hbelow slot' hslot'
        omega
      · exact Nat.lt_succ_self _
    · rw [hmember] at he'
      rw [List.mem_append, List.mem_singleton]
      by_cases hlow : slot' < position
      · exact .inl (hpassed slot' e' hlow he')
      · have := hfirst slot' e' (Nat.le_of_not_lt hlow) (Machine.memberAt_eq_some.1 he')
        exact .inr (by omega)
  · intro t ht slot' e₁ e₂ hsome he₁ he₂
    rw [hmember] at he₂
    rcases hsteps ht with ht | rfl
    · exact h.same t ht slot' e₁ e₂ hsome he₁ he₂
    · have he₁ : m.memberAt c slot' = some e₁ := he₁
      rw [he₁] at he₂
      cases he₂
      rfl
  · intro earlier t later hcut hearlier hlast slot' e' he'
    rcases concat_cut hcut with ⟨-, rfl⟩ | ⟨later', hcut, -⟩
    · rw [hslot] at hlast
      cases hlast
    · exact h.complete earlier t later' hcut hearlier hlast slot' e' he'

/-- **A step hands out the next member, or has handed out all.** -/
theorem next (h : Walked c r source own m cursor) {eng : Engine} {result : Ref}
    (hrun : eng.advance r m = .ok result m') :
    Walked c r source (own ++ [⟨r, m, result, m'⟩]) m' (cursor.past (m.heap.kind c).members) := by
  obtain ⟨result', m'', hadvance, hstep, hreports⟩ :=
    Engine.advance_walks eng h.kind h.walks
  rw [hrun] at hadvance
  cases hadvance
  unfold Cursor.past at hstep ⊢
  cases hnext : cursor.nextSlot? (m.heap.kind c).members with
  | none =>
    rw [hnext] at hstep hreports
    exact h.finish hnext hstep hreports
  | some slot =>
    rw [hnext] at hstep hreports
    exact h.handOut hnext hstep hreports

end Walked

/-- **What a fresh iterator has handed out after any interleaving.** -/
theorem Machine.Interleaving.walked {eng : Engine} {c r : Ref} {m₀ m : Machine}
    {source : IterationSource} {steps : List IterationStep}
    (h : m₀.Interleaving eng c steps m) (hkind : m₀.heap.kind r = .iterator source .fresh)
    (hw : m₀.heap.Walks c source) :
    ∃ cursor, Walked c r source (stepsOf r steps) m cursor := by
  induction h with
  | start => exact ⟨.fresh, .start hkind hw⟩
  | edit _ edit hrun ih =>
    obtain ⟨cursor, hwalked⟩ := ih
    exact ⟨cursor, hwalked.edit hrun⟩
  | @next steps m m' r' result _ hr' hrun ih =>
    obtain ⟨cursor, hwalked⟩ := ih
    by_cases hr : r' = r
    · subst hr
      have hown : stepsOf r' (steps ++ [⟨r', m, result, m'⟩]) =
          stepsOf r' steps ++ [⟨r', m, result, m'⟩] := by simp [stepsOf]
      rw [hown]
      exact ⟨_, hwalked.next hrun⟩
    · -- the step of another iterator
      have hown : stepsOf r (steps ++ [⟨r', m, result, m'⟩]) = stepsOf r steps := by
        simp [stepsOf, hr]
      obtain ⟨hc, hothers⟩ := stepped_of_advance hr' hrun
      rw [hown]
      exact ⟨cursor, hwalked.aside hc
        (hothers r (Ne.symm hr) (Engine.live_of_iterator hwalked.kind))⟩
  | aside _ hcollection hiterators ih =>
    obtain ⟨cursor, hwalked⟩ := ih
    exact ⟨cursor, hwalked.aside hcollection
      (hiterators r ⟨source, cursor, hwalked.kind, hwalked.walks⟩)⟩

/-- Of the slots that there were none is lost, and none has a new member. -/
structure Machine.SlotsKept (m₀ : Machine) (c : Ref) (m : Machine) : Prop where
  length_le : (m₀.heap.kind c).members.length ≤ (m.heap.kind c).members.length
  member : ∀ slot e, slot < (m₀.heap.kind c).members.length → m.memberAt c slot = some e →
    ∃ e₀, m₀.memberAt c slot = some e₀ ∧ e₀.key? = e.key?

theorem Machine.SlotsKept.congr {m₀ m m' : Machine} {c : Ref} (h : m₀.SlotsKept c m)
    (hc : m'.heap.kind c = m.heap.kind c) : m₀.SlotsKept c m' := by
  refine ⟨?_, fun slot e hslot he => ?_⟩
  · rw [hc]
    exact h.length_le
  · rw [memberAt_congr hc] at he
    exact h.member slot e hslot he

/-- **A slot is used for one insertion.** -/
theorem Machine.Interleaving.slotsKept {eng : Engine} {c : Ref} {m₀ m : Machine}
    {steps : List IterationStep} (h : m₀.Interleaving eng c steps m) : m₀.SlotsKept c m := by
  induction h with
  | start => exact ⟨Nat.le_refl _, fun slot e _ he => ⟨e, he, rfl⟩⟩
  | edit _ edit hrun ih =>
    obtain ⟨hmembers, -, -⟩ := Edit.kinds_of_run hrun
    refine ⟨?_, fun slot e hslot he => ?_⟩
    · rw [hmembers]
      exact Nat.le_trans ih.length_le (edit.length_le _)
    · rw [memberAt_eq_some, hmembers] at he
      obtain ⟨e₁, he₁, hkey₁⟩ := edit.kept he (Nat.lt_of_lt_of_le hslot ih.length_le)
      obtain ⟨e₀, he₀, hkey₀⟩ := ih.member slot e₁ hslot (memberAt_eq_some.2 he₁)
      exact ⟨e₀, he₀, hkey₀.trans hkey₁⟩
  | next _ hr hrun ih => exact ih.congr (stepped_of_advance hr hrun).1
  | aside _ hcollection _ ih => exact ih.congr hcollection

/-- **Iterators over a map or a set visit its members, whatever is done in between.**

Edits and steps end.  Along every interleaving a slot is used for one insertion, a new one at the
end for a key that is not there.  A fresh iterator hands out slots in ascending order, each with the
member that stands there when it is reached; and when it first reports the end it has handed out
every member that is there exactly once, as the same insertion. -/
theorem iterators_visit_members (eng : Engine) (c : Ref) :
    (∀ (m : Machine) (edit : Edit), edit.Suits (m.heap.kind c) →
      ∃ m', edit.run c m = .ok () m' ∧
        (m'.heap.kind c).members = edit.apply (m.heap.kind c).members) ∧
    (∀ (m : Machine) (r : Ref), m.IteratesOver c r →
      ∃ result m', eng.advance r m = .ok result m') ∧
    ∀ {m₀ m : Machine} {steps : List IterationStep} {r : Ref} {source : IterationSource},
      m₀.Interleaving eng c steps m → m₀.heap.kind r = .iterator source .fresh →
      m₀.heap.Walks c source →
        (∀ slot e, slot < (m₀.heap.kind c).members.length → m.memberAt c slot = some e →
          ∃ e₀, m₀.memberAt c slot = some e₀ ∧ e₀.key? = e.key?) ∧
        (slotsOf c (stepsOf r steps)).Pairwise (· < ·) ∧
        (∀ s ∈ stepsOf r steps,
          s.after.heap.Reports s.result ((s.slot? c).bind (s.before.memberAt c)) ∧
          ∀ slot, s.slot? c = some slot → ∃ e, s.before.memberAt c slot = some e) ∧
        ∀ earlier s later, stepsOf r steps = earlier ++ s :: later →
          (∀ t ∈ earlier, t.slot? c ≠ none) → s.slot? c = none →
            ∀ slot e, s.before.memberAt c slot = some e →
              (slotsOf c earlier).count slot = 1 ∧
              ∀ t ∈ earlier, t.slot? c = some slot → ∀ e', t.before.memberAt c slot = some e' →
                e'.key? = e.key? := by
  refine ⟨fun m edit hsuits => ?_, fun m r hr => ?_, fun hrun hkind hw => ?_⟩
  · obtain ⟨kind, hrun, -, -⟩ := Edit.run_apply hsuits
    exact ⟨_, hrun, (Edit.kinds_of_run hrun).1⟩
  · obtain ⟨source, cursor, hkind, hw⟩ := hr
    obtain ⟨result, m', hadvance, -, -⟩ := Engine.advance_walks eng hkind hw
    exact ⟨result, m', hadvance⟩
  · obtain ⟨cursor, hwalked⟩ := hrun.walked hkind hw
    refine ⟨hrun.slotsKept.member, hwalked.increasing, hwalked.reports, ?_⟩
    intro earlier s later hcut hopen hlast slot e he
    obtain ⟨hmem, hsame⟩ := hwalked.complete earlier s later hcut hopen hlast slot e he
    refine ⟨List.count_eq_one_of_mem ?_ hmem, hsame⟩
    have hincreasing := hwalked.increasing
    rw [hcut, slotsOf, List.filterMap_append, List.pairwise_append] at hincreasing
    exact hincreasing.1.imp Nat.ne_of_lt

/-! ### A map that is edited under an iterator -/

/-- A map with two keys and an iterator over it. -/
def Machine.iteratedMap : Machine :=
  Run.final ((do
    let map ← Engine.newMap
    Engine.mapSet (.object map) (.bool false) (.text "a")
    Engine.mapSet (.object map) (.bool true) (.text "b")
    Engine.newIterator (.mapEntries map)) (Session.initialMachine ⟨true, false⟩))

/-- The machine after a step of the iterator. -/
def Machine.stepped (m : Machine) : Machine := Run.final ((engine 0).advance ⟨47⟩ m)

/-- The machine after one of the keys is deleted and set again. -/
def Machine.reset (m : Machine) : Machine :=
  Run.final (Edit.run ⟨46⟩ (.mapSet (.bool true) (.text "c"))
    (Run.final (Edit.run ⟨46⟩ (.mapDelete (.bool true)) m)))

/-- The map of a fresh iterator over its entries. -/
def Kind.freshMap? : Kind → Option Ref
  | .iterator (.mapEntries target) .fresh => some target
  | _ => none

def Kind.isMap : Kind → Bool
  | .map _ => true
  | _ => false

theorem Kind.eq_of_freshMap? {kind : Kind} {map : Ref} (h : kind.freshMap? = some map) :
    kind = .iterator (.mapEntries map) .fresh := by
  unfold freshMap? at h
  split at h
  · cases h
    rfl
  · cases h

theorem Heap.walks_of_isMap {h : Heap} {map : Ref} (hmap : (h.kind map).isMap = true) :
    h.Walks map (.mapEntries map) := by
  cases hkind : h.kind map with
  | map data => exact .map data hkind
  | _ =>
    rw [hkind] at hmap
    cases hmap

/-- After the first step the second key moves to the end; it is handed out there, and then there is
no more. -/
theorem iterators_visit_members_iteratedMap :
    ∃ steps m, Machine.iteratedMap.Interleaving (engine 0) ⟨46⟩ steps m ∧
      (stepsOf ⟨47⟩ steps).map (IterationStep.slot? ⟨46⟩) = [some 0, some 2, none] ∧
      (∀ s ∈ stepsOf ⟨47⟩ steps, s.after.heap.Reports s.result
        ((s.slot? ⟨46⟩).bind (s.before.memberAt ⟨46⟩))) ∧
      ∃ earlier s, stepsOf ⟨47⟩ steps = earlier ++ [s] ∧
        ∀ slot e, s.before.memberAt ⟨46⟩ slot = some e →
          (slotsOf ⟨46⟩ earlier).count slot = 1 := by
  have hmap : (Machine.iteratedMap.heap.kind ⟨46⟩).isMap = true := by decide +kernel
  have hfresh : (Machine.iteratedMap.heap.kind ⟨47⟩).freshMap? = some ⟨46⟩ := by decide +kernel
  have hfirst : Run.given? ((engine 0).advance ⟨47⟩ Machine.iteratedMap) = some ⟨49⟩ := by
    decide +kernel
  have hdelete : Run.given? (Edit.run ⟨46⟩ (.mapDelete (.bool true)) Machine.iteratedMap.stepped) =
      some () := by decide +kernel
  have hset : Run.given? (Edit.run ⟨46⟩ (.mapSet (.bool true) (.text "c"))
      (Run.final (Edit.run ⟨46⟩ (.mapDelete (.bool true)) Machine.iteratedMap.stepped))) =
      some () := by decide +kernel
  have hsecond : Run.given? ((engine 0).advance ⟨47⟩ Machine.iteratedMap.stepped.reset) =
      some ⟨51⟩ := by decide +kernel
  have hthird : Run.given? ((engine 0).advance ⟨47⟩ Machine.iteratedMap.stepped.reset.stepped) =
      some ⟨52⟩ := by decide +kernel
  have hslot₁ : Machine.iteratedMap.slotAhead? ⟨46⟩ ⟨47⟩ = some 0 := by decide +kernel
  have hslot₂ : Machine.iteratedMap.stepped.reset.slotAhead? ⟨46⟩ ⟨47⟩ = some 2 := by decide +kernel
  have hslot₃ : Machine.iteratedMap.stepped.reset.stepped.slotAhead? ⟨46⟩ ⟨47⟩ = none := by
    decide +kernel
  unfold Machine.reset Machine.stepped at *
  -- from here on the machines are not evaluated any more
  generalize Machine.iteratedMap = m at *
  have hkind := Kind.eq_of_freshMap? hfresh
  have hw := Heap.walks_of_isMap hmap
  have hover {steps : List IterationStep} {m' : Machine}
      (h : m.Interleaving (engine 0) ⟨46⟩ steps m') : m'.IteratesOver ⟨46⟩ ⟨47⟩ := by
    obtain ⟨cursor, hwalked⟩ := h.walked hkind hw
    exact ⟨_, cursor, hwalked.kind, hwalked.walks⟩
  have h₁ := Machine.Interleaving.start.next (hover .start) (Run.eq_ok_of_given? hfirst)
  have h₂ := (h₁.edit _ (Run.eq_ok_of_given? hdelete)).edit _ (Run.eq_ok_of_given? hset)
  have h₃ := h₂.next (hover h₂) (Run.eq_ok_of_given? hsecond)
  have h₄ := h₃.next (hover h₃) (Run.eq_ok_of_given? hthird)
  obtain ⟨-, -, hreports, hcomplete⟩ := (iterators_visit_members (engine 0) ⟨46⟩).2.2 h₄ hkind hw
  have hcut : ∀ a b s : IterationStep, a.iterator = ⟨47⟩ → b.iterator = ⟨47⟩ → s.iterator = ⟨47⟩ →
      stepsOf ⟨47⟩ ([] ++ [a] ++ [b] ++ [s]) = [a, b] ++ [s] := by
    intro a b s ha hb hs
    simp [stepsOf, ha, hb, hs]
  refine ⟨_, _, h₄, ?_, fun s hs => (hreports s hs).1, _, _, hcut _ _ _ rfl rfl rfl, ?_⟩
  · rw [hcut _ _ _ rfl rfl rfl]
    simp [IterationStep.slot?, hslot₁, hslot₂, hslot₃]
  · intro slot e he
    refine (hcomplete _ _ [] (hcut _ _ _ rfl rfl rfl) (fun t ht => ?_) hslot₃ slot e he).1
    rcases List.mem_pair.1 ht with rfl | rfl
    · simp [IterationStep.slot?, hslot₁]
    · simp [IterationStep.slot?, hslot₂]

end ObjectModel
