import ObjectModel.Proofs.Agreement
import ObjectModel.Proofs.Kinds

/-!
# Iterators move on

A step takes the positions of its source one after the other.  Where the source is steady, the
cursor is not behind any earlier moment of the history of the realm, whatever user code runs and
whichever steps of the same iterator it makes: an exhausted iterator stays so, and the step that
hands out a position asks nothing across whose answer another step passes that position.  The
elements of an object that is no array are not steady: its length is read by user code, and then
the cursor goes past the position at which it stood before, wherever it stands by then.
-/

namespace ObjectModel

open Discipline

/-- What a step from one cursor to another hands out: at the end nothing, otherwise the value at a
position that was still to come before the step and is passed after it. -/
def Cursor.HandsOut (c : Cursor) : Option (Nat × Value) → Cursor → Prop
  | none, c' => c' = .exhausted
  | some (position, _), c' => c ≤ .active position ∧ .active (position + 1) ≤ c'

/-- The iterator has passed the position. -/
def Machine.hasPassed (m : Machine) (iterator : Ref) (position : Nat) : Bool :=
  match m.heap.kind iterator with
  | .iterator _ .fresh => false
  | .iterator _ (.active next) => position < next
  | .iterator _ .exhausted => true
  | _ => false

/-- Stops when a method is left across which the iterator has passed the position. -/
def Stops.crossing (iterator : Ref) (position : Nat) : Stops where
  enters _ _ := false
  leaves _ m m' := !m.hasPassed iterator position && m'.hasPassed iterator position

variable {eng : Engine} {m m' : Machine} {r : Ref} {source : IterationSource} {c : Cursor}

theorem Cursor.le_active {position : Nat} (h : c.position? = some position) :
    c ≤ .active position := by
  cases c with
  | fresh => trivial
  | active p =>
    cases h
    exact Nat.le_refl position
  | exhausted => cases h

theorem Machine.hasPassed_iff (hkind : m.heap.kind r = .iterator source c) (position : Nat) :
    m.hasPassed r position = true ↔ .active (position + 1) ≤ c := by
  simp only [hasPassed, hkind]
  cases c with
  | fresh => exact ⟨nofun, False.elim⟩
  | active next =>
    rw [decide_eq_true_iff, Cursor.active_le_active]
    exact Nat.succ_le_iff.symm
  | exhausted => exact ⟨fun _ => trivial, fun _ => rfl⟩

/-! ## Taking a position -/

namespace Engine

/-- Over a steady source nothing happens between the look at the cursor and its move. -/
theorem take_steady (heng : eng.Prompt) (hkind : m.heap.kind r = .iterator source c)
    (hsteady : source.Steady m.heap) {found : Option (Nat × Element)}
    (h : eng.take r m = .ok found m') :
    (c = .exhausted ∧ found = none ∧ m' = m) ∨
      ∃ position element, c.position? = some position ∧ found = taken position element ∧
        m' = Run.final (moveCursor r (cursorPast position element) m) := by
  rw [take, Run.bind_apply] at h
  cases hlook : eng.look r m with
  | error e m₁ =>
    rw [hlook] at h
    cases h
  | ok seen m₁ =>
    rw [hlook] at h
    obtain ⟨source', c', hkind', hposition, hsame⟩ := eng.look_cases hlook
    rw [hkind] at hkind'
    cases hkind'
    have hm₁ : m₁ = m := by
      rcases hsame with hsame | ⟨array, length, rfl, hlength⟩
      · exact hsame
      · have hlast := heng.lengthOfArrayLike hsteady
        rw [hlength] at hlast
        exact hlast
    subst hm₁
    cases seen with
    | none =>
      cases h
      refine .inl ⟨?_, rfl, rfl⟩
      cases c with
      | exhausted => rfl
      | _ => cases hposition
    | some seen =>
      obtain ⟨position, element⟩ := seen
      dsimp only at h
      rw [pass_some] at h
      cases h
      exact .inr ⟨position, element, hposition.symm, rfl, rfl⟩

/-! ## Handing out a value -/

/-- One position is taken and delivered. -/
structure Round (eng : Engine) (r : Ref) (source : IterationSource) (m : Machine)
    (position : Nat) (delivered : Option Value) (m₂ : Machine) : Prop where
  exists_element : ∃ element m₁, eng.take r m = .ok (some (position, element)) m₁ ∧
    eng.deliver position element m₁ = .ok delivered m₂ ∧ kinds.Seen m₁.size element ∧
      m₁.heap.kind r = .iterator source (.active (position + 1)) ∧ source.Steady m₁.heap ∧
        kinds.Follows m m₁
  exists_cursor : ∃ c₂, m₂.heap.kind r = .iterator source c₂ ∧ .active (position + 1) ≤ c₂
  steady : source.Steady m₂.heap
  follows : kinds.Follows m m₂

variable {fuel : Nat} {found : Option (Nat × Value)}

/-- A step ends, or makes a round and ends with its value or goes on. -/
theorem handOutWithin_cases (heng : eng.Meets .kinds) (hm : kinds.Sound m)
    (hkind : m.heap.kind r = .iterator source c) (hsteady : source.Steady m.heap)
    (h : eng.handOutWithin r (fuel + 1) m = .ok found m') :
    (found = none ∧ m'.heap.kind r = .iterator source .exhausted) ∨
      ∃ position delivered m₂, c.position? = some position ∧
        eng.Round r source m position delivered m₂ ∧
          ((∃ v, delivered = some v ∧ found = some (position, v) ∧ m' = m₂) ∨
            delivered = none ∧ eng.handOutWithin r fuel m₂ = .ok found m') := by
  simp only [handOutWithin, Run.bind_apply] at h
  have hmeets := (Routine.take r).meets heng (Nat.le_refl m.size) hm
  cases htake : eng.take r m with
  | error e m₁ =>
    rw [htake] at h
    cases h
  | ok seen m₁ =>
    rw [htake] at h hmeets
    rcases take_steady (heng.lengths trivial) hkind hsteady htake with
      ⟨rfl, rfl, rfl⟩ | ⟨position, element, hposition, hseen, hm₁⟩
    · cases h
      exact .inl ⟨rfl, hkind⟩
    have hmoved : m₁.heap.kind r = .iterator source (cursorPast position element) := by
      rw [hm₁]
      exact kind_moveCursor hkind _
    by_cases hfinished : element = .finished
    · subst hfinished
      rw [hseen] at h
      cases h
      exact .inl ⟨rfl, hmoved⟩
    have htaken : seen = some (position, element) := by
      rw [hseen]
      cases element <;> first | rfl | exact absurd rfl hfinished
    have hmoved : m₁.heap.kind r = .iterator source (.active (position + 1)) := by
      rw [hmoved]
      cases element <;> first | rfl | exact absurd rfl hfinished
    subst htaken
    have helement := (seen_pair.1 (seen_some.1 hmeets.2)).2
    dsimp only at h
    rw [Run.bind_apply] at h
    have hmeets' := (Routine.deliver helement position).meets heng (Nat.le_refl _) hmeets.1.sound
    cases hdeliver : eng.deliver position element m₁ with
    | error e m₂ =>
      rw [hdeliver] at h
      cases h
    | ok delivered m₂ =>
      rw [hdeliver] at h hmeets'
      have hfollows := hmeets'.1
      have hsteady₁ := hmeets.1.keeps.steady hsteady
      obtain ⟨c₂, hkind₂, hle⟩ := hfollows.keeps.iterator hmoved
      refine .inr ⟨position, delivered, m₂, hposition, ?_, ?_⟩
      · exact ⟨⟨element, m₁, htake, hdeliver, helement, hmoved, hsteady₁, hmeets.1⟩,
          ⟨c₂, hkind₂, hle hsteady₁⟩, hfollows.keeps.steady hsteady₁, hmeets.1.trans hfollows⟩
      · cases delivered with
        | none => exact .inr ⟨rfl, h⟩
        | some v =>
          cases h
          exact .inl ⟨v, rfl, rfl, rfl⟩

/-- A step that gives a result moves the cursor past what it hands out. -/
theorem handOutWithin_handsOut (heng : eng.Meets .kinds) (hm : kinds.Sound m)
    (hkind : m.heap.kind r = .iterator source c) (hsteady : source.Steady m.heap)
    (h : eng.handOutWithin r fuel m = .ok found m') :
    ∃ c', m'.heap.kind r = .iterator source c' ∧ c.HandsOut found c' := by
  induction fuel generalizing m c with
  | zero => cases h
  | succ fuel ih =>
    rcases handOutWithin_cases heng hm hkind hsteady h with
      ⟨rfl, hkind'⟩ | ⟨position, delivered, m₂, hposition, hround, hend⟩
    · exact ⟨.exhausted, hkind', rfl⟩
    obtain ⟨c₂, hkind₂, hle⟩ := hround.exists_cursor
    rcases hend with ⟨v, rfl, rfl, rfl⟩ | ⟨rfl, hrest⟩
    · exact ⟨c₂, hkind₂, Cursor.le_active hposition, hle⟩
    · obtain ⟨c', hkind', hout⟩ := ih hround.follows.sound hkind₂ hround.steady hrest
      refine ⟨c', hkind', ?_⟩
      cases found with
      | none => exact hout
      | some found =>
        -- the position handed out later is not behind the one that gave nothing
        have hle' := Cursor.le_trans (Cursor.le_active_succ hposition) (Cursor.le_trans hle hout.1)
        exact ⟨hle', hout.2⟩

/-! ## Steps within steps -/

variable {position : Nat} {v : Value}

theorem lengthOfArrayLike_crossing (heng : eng.Prompt) {array : Ref}
    (harray : (m.heap.object array).isArray = true) :
    (eng.stopping (.crossing r position)).lengthOfArrayLike array m =
      eng.lengthOfArrayLike array m := by
  have hlast : Run.final (eng.answer (.get array .length (.object array)) m) = m := by
    rcases heng array m harray with ⟨length, hget⟩ | ⟨e, hget⟩
    · exact congrArg Run.final hget
    · exact congrArg Run.final hget
  have hsame : (eng.stopping (.crossing r position)).get array .length m =
      eng.get array .length m := by
    refine stopping_of_passes Bool.false_ne_true ?_
    rw [hlast]
    simp [Stops.crossing]
  rw [lengthOfArrayLike, lengthOfArrayLike, Run.bind_apply, Run.bind_apply, hsame]
  rcases heng array m harray with ⟨length, hget⟩ | ⟨e, hget⟩
  · rw [hget]
    rfl
  · rw [hget]

/-- Over a steady source no other step can come between the look and the move. -/
theorem take_crossing (heng : eng.Prompt) (hkind : m.heap.kind r = .iterator source c)
    (hsteady : source.Steady m.heap) :
    (eng.stopping (.crossing r position)).take r m = eng.take r m := by
  have hlook : (eng.stopping (.crossing r position)).look r m = eng.look r m := by
    refine look_congr hkind fun array harray => ?_
    subst harray
    exact lengthOfArrayLike_crossing heng hsteady
  rw [take, take, Run.bind_apply, Run.bind_apply, hlook]

/-- Once the iterator has passed the position it cannot pass it again. -/
theorem kinds_keeps_passed (r : Ref) (source : IterationSource) (position : Nat) :
    kinds.Keeps fun m => source.Steady m.heap ∧
      ∃ c, m.heap.kind r = .iterator source c ∧ .active (position + 1) ≤ c where
  run := by
    rintro m m' hkeeps ⟨hsteady, c, hkind, hle⟩
    have hkeeps : m.Onward m' := hkeeps
    obtain ⟨c', hkind', hle'⟩ := hkeeps.iterator hkind
    exact ⟨hkeeps.steady hsteady, c', hkind', Cursor.le_trans hle (hle' hsteady)⟩
  enter _ hm := hm

theorem crossing_unsourced (r : Ref) (position : Nat) :
    kinds.Unsourced fun m => m.hasPassed r position = true where
  keeps _ _ h := ⟨h.grows, h.kinds⟩
  property _ h := h

theorem crossing_cuts (heng : eng.Meets .kinds) (r : Ref) (position : Nat) :
    (eng.stopping (.crossing r position)).Cuts .kinds (fun m => m.hasPassed r position = true)
      eng := by
  have hself : eng.Cuts .kinds (fun m => m.hasPassed r position = true) eng :=
    ⟨rfl, fun _ _ _ _ _ => .inl rfl⟩
  have hwithin : (Stops.crossing r position).Within fun m => m.hasPassed r position = true :=
    ⟨fun _ _ h => absurd h Bool.false_ne_true, fun _ _ _ h => (Bool.and_eq_true_iff.1 h).2⟩
  have hcuts := hself.stopping (T := .never) heng.answers (Stops.covers_never _) hwithin
  rwa [Stops.stopping_never] at hcuts

/-- **The step that hands out a position asks nothing across whose answer the iterator passes
it.** -/
theorem handOutWithin_crossing (heng : eng.Meets .kinds)
    (hsize : Intrinsic.all.length ≤ m.size) (hm : kinds.Sound m)
    (hkind : m.heap.kind r = .iterator source c) (hsteady : source.Steady m.heap)
    (h : eng.handOutWithin r fuel m = .ok (some (position, v)) m') :
    (eng.stopping (.crossing r position)).handOutWithin r fuel m = .ok (some (position, v)) m' := by
  induction fuel generalizing m c with
  | zero => cases h
  | succ fuel ih =>
    rcases handOutWithin_cases heng hm hkind hsteady h with
      ⟨hnone, -⟩ | ⟨start, delivered, m₂, hposition, hround, hend⟩
    · cases hnone
    obtain ⟨element, m₁, htake, hdeliver, helement, hkind₁, hsteady₁, hfollows₁⟩ :=
      hround.exists_element
    obtain ⟨c₂, hkind₂, hle₂⟩ := hround.exists_cursor
    have hroutine := Routine.deliver helement start
    have htake' : (eng.stopping (.crossing r position)).take r m = _ :=
      take_crossing (heng.lengths trivial) hkind hsteady
    rw [htake] at htake'
    have hsize₁ := Nat.le_trans hsize hfollows₁.grows
    have hdeliver' : (eng.stopping (.crossing r position)).deliver start element m₁ =
        .ok delivered m₂ := by
      rcases hend with ⟨x, rfl, hfound, rfl⟩ | ⟨rfl, hrest⟩
      · -- the position is passed before anything is asked
        cases hfound
        have hagrees : eng.AgreesOn .kinds (fun m => source.Steady m.heap ∧
            ∃ c, m.heap.kind r = .iterator source c ∧ .active (position + 1) ≤ c)
            (eng.stopping (.crossing r position)) := by
          refine ⟨rfl, fun μ s _ _ ⟨_, c, hkind, hle⟩ => ?_⟩
          have hpassed := (Machine.hasPassed_iff hkind position).2 hle
          refine (stopping_of_passes Bool.false_ne_true ?_).symm
          simp [Stops.crossing, hpassed]
        rw [← hdeliver]
        exact (hroutine.agrees (kinds_keeps_passed r source position) heng hagrees (Nat.le_refl _)
          hfollows₁.sound ⟨hsteady₁, _, hkind₁, Cursor.le_refl _⟩).symm
      · -- the position is still to come after all that is asked
        obtain ⟨c', -, hout⟩ :=
          handOutWithin_handsOut heng hround.follows.sound hkind₂ hround.steady hrest
        rcases hroutine.cuts (crossing_unsourced r position) heng.stopping heng
          (crossing_cuts heng r position) hsize₁ (Nat.le_refl _) hfollows₁.sound with
            hsame | ⟨s, -, hpassed, hbefore, hafter⟩
        · exact hsame.trans hdeliver
        · rw [hdeliver] at hafter
          obtain ⟨cₛ, hkindₛ, -⟩ := hbefore.keeps.iterator hkind₁
          have hcross := (Machine.hasPassed_iff hkindₛ position).1 hpassed
          obtain ⟨-, c₃, hkind₃, hle₃⟩ := (kinds_keeps_passed r source position).run hafter.keeps
            ⟨hbefore.keeps.steady hsteady₁, cₛ, hkindₛ, hcross⟩
          have heq := hkind₂.symm.trans hkind₃
          cases heq
          have hlt := Cursor.active_le_active.1 (Cursor.le_trans hle₃ hout.1)
          omega
    simp only [handOutWithin, Run.bind_apply, htake', hdeliver']
    rcases hend with ⟨x, rfl, hfound, rfl⟩ | ⟨rfl, hrest⟩
    · cases hfound
      rfl
    · exact ih (Nat.le_trans hsize hround.follows.grows) hround.follows.sound hkind₂ hround.steady
        hrest

end Engine

theorem Engine.handOut_apply (hkind : m.heap.kind r = .iterator source c) (eng : Engine) :
    eng.handOut r m = eng.handOutWithin r (m.heap.skippable source + 1) m := by
  simp only [Engine.handOut, Run.bind_apply, Run.heap, hkind]

/-- Nothing is handed out by an exhausted iterator. -/
theorem Engine.handOut_exhausted (hkind : m.heap.kind r = .iterator source .exhausted)
    (eng : Engine) : eng.handOut r m = .ok none m := by
  rw [handOut_apply hkind]
  simp only [handOutWithin, take, look, Run.bind_apply, Run.heap, hkind]
  rfl

/-- At a live array the cursor goes past the position at which it stood before the length was
read, wherever it stands afterwards. -/
theorem Engine.take_live {array : Ref} {position length : Nat}
    (hkind : m.heap.kind r = .iterator (.arrayValues array) c)
    (hposition : c.position? = some position)
    (hlength : eng.lengthOfArrayLike array m = .ok length m') :
    Run.final (eng.take r m) =
      Run.final (moveCursor r (if length ≤ position then .exhausted else .active (position + 1))
        m') := by
  rw [take, Run.bind_apply, eng.look_live hkind hposition, hlength]
  dsimp only
  rw [pass_some]
  split <;> rfl

/-- **Iterators over steady sources move on.**  At every later moment of the history the cursor is
not behind; a step that gives a result hands out a position that was still to come, and asks
nothing across whose answer another step passes it, or leaves the iterator exhausted; an exhausted
iterator hands out nothing.  The elements of an object that is no array are the only source that is
not steady, and there the cursor may be moved back: it goes past the position that it had before
the length was read. -/
theorem iterator_moves_on {m : Machine} {r : Ref} {source : IterationSource} {c : Cursor}
    (hkind : m.heap.kind r = .iterator source c) :
    (m.Attained → source.Steady m.heap →
      (∀ m', Relation.ReflTransGen Machine.Before m m' → source.Steady m'.heap ∧
        ∃ c', m'.heap.kind r = .iterator source c' ∧ c ≤ c') ∧
      (∀ n found m', (engine n).handOut r m = .ok found m' →
        (∃ c', m'.heap.kind r = .iterator source c' ∧ c.HandsOut found c') ∧
          ∀ position v, found = some (position, v) →
            ((engine n).stopping (.crossing r position)).handOut r m = .ok found m') ∧
      (c = .exhausted → ∀ eng : Engine, eng.handOut r m = .ok none m)) ∧
    (∀ eng : Engine, eng.advance r = eng.handOut r >>= Engine.resultFor) ∧
    (¬ source.Steady m.heap →
      ∃ array, source = .arrayValues array ∧ (m.heap.object array).isArray = false) ∧
    ∀ array position, source = .arrayValues array → c.position? = some position →
      ∀ (eng : Engine) (length : Nat) (m' : Machine),
        eng.lengthOfArrayLike array m = .ok length m' →
          Run.final (eng.take r m) = Run.final (Engine.moveCursor r
            (if length ≤ position then .exhausted else .active (position + 1)) m') := by
  refine ⟨fun hm hsteady => ⟨fun m' hbefore => ?_, fun n found m' h => ?_, ?_⟩,
    fun eng => eng.advance_eq r, fun hsteady => ?_, ?_⟩
  · have honward := onward_of_before hm hbefore
    obtain ⟨c', hkind', hle⟩ := honward.iterator hkind
    exact ⟨honward.steady hsteady, c', hkind', hle hsteady⟩
  · obtain ⟨hsound, hsize⟩ := hm.soundKinds
    have heng : (engine n).Meets .kinds := engine_meets trivial (fun _ => trivial) n
    rw [Engine.handOut_apply hkind] at h
    refine ⟨Engine.handOutWithin_handsOut heng hsound hkind hsteady h, ?_⟩
    rintro position v rfl
    rw [Engine.handOut_apply hkind]
    exact Engine.handOutWithin_crossing heng hsize hsound hkind hsteady h
  · rintro rfl
    exact Engine.handOut_exhausted hkind
  · cases source with
    | arrayValues array => exact ⟨array, rfl, Bool.eq_false_iff.2 hsteady⟩
    | _ => exact absurd trivial hsteady
  · rintro array position rfl hposition eng length m' hlength
    exact Engine.take_live hkind hposition hlength

/-- Makes an object whose length is given by a function, and two iterators, one over the elements
of the object and one over a list.  Where the variable `turn` says so, the function advances the
first iterator before it answers. -/
def Expr.advancingLength : Expr :=
  .operation (.control (.sequence [0, 1, 2, 3, 4]))
    [.operation (.create (.object none [])) [] (some "object"),
      .operation (.iterate (.iterator (.arrayValues 0))) [.name "object"] (some "elements"),
      .operation (.access (.define 0 1 ⟨none, none, some 2, none, none, some true⟩ false))
        [.name "object", .value (.text "length"),
          .operation (.create (.function 0 ⟨"length", none, false, none, 0, [1], "length", false⟩))
            [.value .undefined,
              .operation (.control (.select 0 [("outer", 1)] 2))
                [.name "turn",
                  .operation (.control (.sequence [0, 1, 2]))
                    [.operation (.control (.give 0)) [.value (.text "inner")] (some "turn"),
                      .operation (.iterate (.advance 0)) [.name "elements"] none,
                      .value (.ofNat 1)] none,
                  .value (.ofNat 0)] none] none] none,
      .operation (.iterate (.iterator (.list [0]))) [.value (.ofNat 7)] (some "list"),
      .operation (.control (.give 0)) [.value (.text "outer")] (some "turn")] none

/-- The realm after the script. -/
def Machine.advancingLength : Machine :=
  Run.final ((engine 30).answer (.evaluate none .advancingLength)
    (Session.initialMachine ⟨true, false⟩))

deriving instance DecidableEq for IterationSource

/-- What an iterator walks over and where it stands. -/
def Kind.iteration? : Kind → Option (IterationSource × Cursor)
  | .iterator source c => some (source, c)
  | _ => none

theorem Kind.eq_of_iteration? {kind : Kind} (h : kind.iteration? = some (source, c)) :
    kind = .iterator source c := by
  cases kind with
  | iterator source c =>
    cases h
    rfl
  | _ => cases h

theorem Machine.attained_advancingLength : Machine.advancingLength.Attained := by
  have hliteral : ∀ r, ¬ Expr.advancingLength.RefersTo r := by
    intro r
    simp [Expr.advancingLength, Value.ofNat]
  exact .evaluate 30 hliteral (.initial _)

/-- The list is stepped through.  The length of the object is read while its iterator is fresh; a
step inside of it exhausts the iterator, and after it the cursor is moved back. -/
theorem iterator_moves_on_advancingLength :
    Machine.advancingLength.Attained ∧
      (∃ r source v m' c', Machine.advancingLength.heap.kind r = .iterator source .fresh ∧
        source.Steady Machine.advancingLength.heap ∧
        (engine 30).handOut r Machine.advancingLength = .ok (some (0, v)) m' ∧
        m'.heap.kind r = .iterator source c' ∧ Cursor.HandsOut .fresh (some (0, v)) c') ∧
      ∃ r array m', Machine.advancingLength.heap.kind r = .iterator (.arrayValues array) .fresh ∧
        (engine 30).lengthOfArrayLike array Machine.advancingLength = .ok 1 m' ∧
        m'.heap.kind r = .iterator (.arrayValues array) .exhausted ∧
        (Run.final ((engine 30).take r Machine.advancingLength)).heap.kind r =
          .iterator (.arrayValues array) (.active 1) := by
  have hlist : (Machine.advancingLength.heap.kind ⟨49⟩).iteration? =
      some (.list #[.ofNat 7], .fresh) := by decide +kernel
  have hout : Run.given? ((engine 30).handOut ⟨49⟩ Machine.advancingLength) =
      some (some (0, .ofNat 7)) := by decide +kernel
  have helements : (Machine.advancingLength.heap.kind ⟨47⟩).iteration? =
      some (.arrayValues ⟨46⟩, .fresh) := by decide +kernel
  have hlength : Run.given? ((engine 30).lengthOfArrayLike ⟨46⟩ Machine.advancingLength) =
      some 1 := by decide +kernel
  have hinner : ((Run.final ((engine 30).lengthOfArrayLike ⟨46⟩ Machine.advancingLength)).heap.kind
      ⟨47⟩).iteration? = some (.arrayValues ⟨46⟩, .exhausted) := by decide +kernel
  have hm := Machine.attained_advancingLength
  -- from here on the machine is not evaluated any more
  generalize Machine.advancingLength = m at *
  obtain ⟨⟨c', hkind', hhands⟩, -⟩ := ((iterator_moves_on (Kind.eq_of_iteration? hlist)).1 hm
    trivial).2.1 30 _ _ (Run.eq_ok_of_given? hout)
  have hback := (iterator_moves_on (Kind.eq_of_iteration? helements)).2.2.2 _ _ rfl rfl _ _ _
    (Run.eq_ok_of_given? hlength)
  refine ⟨hm, ⟨⟨49⟩, _, _, _, c', Kind.eq_of_iteration? hlist, trivial,
    Run.eq_ok_of_given? hout, hkind', hhands⟩, ⟨47⟩, ⟨46⟩, _, Kind.eq_of_iteration? helements,
      Run.eq_ok_of_given? hlength, Kind.eq_of_iteration? hinner, ?_⟩
  rw [hback]
  exact Engine.kind_moveCursor (Kind.eq_of_iteration? hinner) _

end ObjectModel
