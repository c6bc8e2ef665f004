import Mathlib.Logic.Relation
import ObjectModel.Proofs.Operation

/-!
# The moments of a run

A run can be stopped where a method is entered or left, in any depth.  A run that stops more often
stops earlier, so two such runs show two moments of one run in their order (`Machine.Moments`), and
whatever a discipline keeps is kept from the earlier to the later one (`Stops.follows`).  `Before`
is the order of all moments in the history of a realm.
-/

namespace ObjectModel

open Discipline

variable {D : Discipline} {α : Type} {b : Nat} {Q : Nat → α → Prop} {op : Engine → Run α}

/-! ## Runs that stop -/

/-- Where a run stops: at methods entered in certain states, and at methods entered and left in
certain states. -/
structure Stops where
  enters : {α : Type} → Method α → Machine → Bool
  leaves : {α : Type} → Method α → Machine → Machine → Bool

/-- The engine that stops.  Nothing catches a stop. -/
def Engine.stopping (eng : Engine) (S : Stops) : Engine where
  limit := eng.limit
  answer μ m :=
    if S.enters μ m then .error .outOfFuel m
    else if S.leaves μ m (Run.final (eng.answer μ m)) then
      .error .outOfFuel (Run.final (eng.answer μ m))
    else eng.answer μ m

namespace Engine

variable {eng : Engine} {S : Stops} {μ : Method α} {m : Machine}

theorem stopping_of_enters (h : S.enters μ m = true) :
    (eng.stopping S).answer μ m = .error .outOfFuel m := if_pos h

theorem stopping_of_leaves (henters : ¬ S.enters μ m = true)
    (h : S.leaves μ m (Run.final (eng.answer μ m)) = true) :
    (eng.stopping S).answer μ m = .error .outOfFuel (Run.final (eng.answer μ m)) :=
  (if_neg henters).trans (if_pos h)

theorem stopping_of_passes (henters : ¬ S.enters μ m = true)
    (hleaves : ¬ S.leaves μ m (Run.final (eng.answer μ m)) = true) :
    (eng.stopping S).answer μ m = eng.answer μ m :=
  (if_neg henters).trans (if_neg hleaves)

/-- A stop on leaving a method changes only what is given. -/
theorem final_stopping (henters : ¬ S.enters μ m = true) :
    Run.final ((eng.stopping S).answer μ m) = Run.final (eng.answer μ m) := by
  by_cases hleaves : S.leaves μ m (Run.final (eng.answer μ m)) = true
  · rw [stopping_of_leaves henters hleaves]
    rfl
  · rw [stopping_of_passes henters hleaves]

end Engine

namespace Stops

def never : Stops := ⟨fun _ _ => false, fun _ _ _ => false⟩

/-- The engine that stops in any depth. -/
def engine (S : Stops) : Nat → Engine
  | 0 => ObjectModel.engine 0
  | n + 1 => Engine.stopping ⟨n + 1, fun μ => (S.engine n).step μ⟩ S

/-- The first run stops wherever the second does. -/
structure Covers (S T : Stops) : Prop where
  enters : ∀ {α : Type} (μ : Method α) (m : Machine), T.enters μ m = true → S.enters μ m = true
  leaves : ∀ {α : Type} (μ : Method α) (m m' : Machine),
    T.leaves μ m m' = true → S.leaves μ m m' = true

theorem covers_never (S : Stops) : S.Covers never :=
  ⟨fun _ _ h => absurd h Bool.false_ne_true, fun _ _ _ h => absurd h Bool.false_ne_true⟩

/-- All stops are in states with the property. -/
structure Within (S : Stops) (P : Machine → Prop) : Prop where
  enters : ∀ {α : Type} (μ : Method α) (m : Machine), S.enters μ m = true → P m
  leaves : ∀ {α : Type} (μ : Method α) (m m' : Machine), S.leaves μ m m' = true → P m'

theorem stopping_never (eng : Engine) : eng.stopping never = eng := by
  simp [Engine.stopping, never]

/-- A run that never stops is the run. -/
theorem engine_never (n : Nat) : never.engine n = ObjectModel.engine n := by
  induction n with
  | zero => rfl
  | succ n ih =>
    rw [engine, stopping_never, ih]
    rfl

end Stops

/-! ## A run that stops is the beginning of another -/

/-- The first run is the second, or it has stopped on the way, in a state with the property. -/
def Discipline.Cuts (D : Discipline) (P : Machine → Prop) (m : Machine)
    (res res' : EStateM.Result Halt Machine α) : Prop :=
  res = res' ∨
    ∃ s, res = .error .outOfFuel s ∧ P s ∧ D.Follows m s ∧ D.Follows s (Run.final res')

structure Engine.Cuts (D : Discipline) (P : Machine → Prop) (eng eng' : Engine) : Prop where
  limit : eng.limit = eng'.limit
  answers : ∀ {α : Type} (μ : Method α) (m : Machine), Intrinsic.all.length ≤ m.size →
    D.Admits m.size μ → D.Sound m → D.Cuts P m (eng.answer μ m) (eng'.answer μ m)

/-- Neither what the discipline keeps nor the property looks at the state of serialization. -/
structure Discipline.Unsourced (D : Discipline) (P : Machine → Prop) : Prop where
  keeps : ∀ {m m' : Machine} (c c' : SourceContext), D.keeps m m' →
    D.keeps { m with source := c } { m' with source := c' }
  property : ∀ {m : Machine} (c : SourceContext), P m → P { m with source := c }

theorem Discipline.Meets.since {m s : Machine} {res : EStateM.Result Halt Machine α}
    (h : D.Meets Q m res) (hs : D.Follows s (Run.final res)) : D.Meets Q s res := by
  match res with
  | .ok a m' => exact ⟨hs, h.2⟩
  | .error (.thrown v) m' => exact ⟨hs, h.2⟩
  | .error .outOfFuel m' => exact hs

/-- **A routine over an engine that stops is the beginning of the routine.** -/
theorem Routine.cuts {P : Machine → Prop} (h : Routine D b Q op) (hP : D.Unsourced P)
    {eng eng' : Engine} (heng : eng.Meets D) (heng' : eng'.Meets D) (hcuts : eng.Cuts D P eng')
    {m : Machine} (hsize : Intrinsic.all.length ≤ m.size) (hb : b ≤ m.size) (hm : D.Sound m) :
    D.Cuts P m (op eng m) (op eng' m) := by
  induction h generalizing m with
  | act x hx => exact .inl rfl
  | @bind _ _ _ _ _ x f hx hf ihx ihf =>
    have hmeets := hx.meets heng' hb hm
    dsimp only
    rw [Run.bind_apply, Run.bind_apply]
    rcases ihx hsize hb hm with hsame | ⟨s, hstop, hs, hbefore, hafter⟩
    · rw [hsame]
      cases hres : x eng' m with
      | error e m' => exact .inl rfl
      | ok a m' =>
        rw [hres] at hmeets
        have hb' := Nat.le_trans hb hmeets.1.grows
        have hsize' := Nat.le_trans hsize hmeets.1.grows
        rcases ihf _ a hb' hmeets.2 hsize' (Nat.le_refl _) hmeets.1.sound with
          hsame | ⟨s, hstop, hs, hbefore, hafter⟩
        · exact .inl hsame
        · exact .inr ⟨s, hstop, hs, hmeets.1.trans hbefore, hafter⟩
    · rw [hstop]
      refine .inr ⟨s, rfl, hs, hbefore, ?_⟩
      cases hres : x eng' m with
      | error e m' =>
        rw [hres] at hafter
        exact hafter
      | ok a m' =>
        rw [hres] at hmeets hafter
        have hb' := Nat.le_trans hb hmeets.1.grows
        have hrest := (hf _ a hb' hmeets.2).meets heng' (Nat.le_refl _) hmeets.1.sound
        exact hafter.trans hrest.follows
  | answer μ hμ => exact hcuts.answers μ m hsize (hμ.mono hb) hm
  | @limit _ _ _ f _ _ ih =>
    dsimp only
    rw [hcuts.limit]
    exact ih eng'.limit hsize hb hm
  | @attempt _ _ _ x _ _ ih =>
    rcases ih hsize hb hm with hsame | ⟨s, hstop, hs, hbefore, hafter⟩
    · refine .inl ?_
      simp only [Run.attempt]
      rw [hsame]
    · refine .inr ⟨s, ?_, hs, hbefore, ?_⟩
      · simp only [Run.attempt]
        rw [hstop]
      · have hlast : Run.final (Run.attempt (x eng') m) = Run.final (x eng' m) := by
          simp only [Run.attempt]
          cases x eng' m with
          | ok a m' => rfl
          | error e m' => cases e <;> rfl
        rw [hlast]
        exact hafter
  | @visit _ _ x r placeholder _ ih =>
    dsimp only
    rw [Engine.visit_apply, Engine.visit_apply]
    split
    · exact .inl rfl
    · rcases ih (m := { m with source := m.source.enter r }) hsize hb hm with
        hsame | ⟨s, hstop, hs, hbefore, hafter⟩
      · rw [hsame]
        exact .inl rfl
      · rw [hstop]
        refine .inr ⟨{ s with source := s.source.leave r }, rfl, hP.property _ hs, ?_, ?_⟩
        · have hkeeps := hP.keeps (m := { m with source := m.source.enter r }) m.source
            (s.source.leave r) hbefore.keeps
          exact ⟨hkeeps, hbefore.sound, hbefore.grows⟩
        · cases hres : x eng' { m with source := m.source.enter r } with
          | ok t m' =>
            rw [hres] at hafter
            exact ⟨hP.keeps _ _ hafter.keeps, hafter.sound, hafter.grows⟩
          | error e m' =>
            rw [hres] at hafter
            exact ⟨hP.keeps _ _ hafter.keeps, hafter.sound, hafter.grows⟩
  | @settle _ _ _ _ _ x f hx h ih =>
    dsimp only
    rcases ih hsize hb hm with hsame | ⟨s, hstop, hs, hbefore, hafter⟩
    · rw [Run.bind_apply, Run.bind_apply, hsame]
      exact .inl rfl
    · refine .inr ⟨s, ?_, hs, hbefore, ?_⟩
      · rw [Run.bind_apply, hstop]
      · have hmeets := (hx.meets heng' hb hm).since hafter
        exact (h eng' eng heng' heng m s hb hm hbefore (.inr ⟨hsize, hstop⟩) hmeets).follows

/-- The answers of the engine keep to the discipline. -/
def Engine.Answers (D : Discipline) (eng : Engine) : Prop :=
  ∀ {α : Type} (μ : Method α) (m : Machine), D.Admits m.size μ → D.Sound m →
    D.Meets (μ.Ensures D) m (eng.answer μ m)

theorem Engine.Answers.stopping {eng : Engine} {S : Stops} (h : eng.Answers D) :
    (eng.stopping S).Answers D := by
  intro α μ m hμ hm
  have hmeets := h μ m hμ hm
  by_cases henters : S.enters μ m = true
  · rw [Engine.stopping_of_enters henters]
    exact .refl hm
  · by_cases hleaves : S.leaves μ m (Run.final (eng.answer μ m)) = true
    · rw [Engine.stopping_of_leaves henters hleaves]
      exact hmeets.follows
    · rw [Engine.stopping_of_passes henters hleaves]
      exact hmeets

/-- Stops cannot make the read of a length change anything. -/
theorem Engine.Prompt.stopping {eng : Engine} {S : Stops} (h : eng.Prompt) :
    (eng.stopping S).Prompt := by
  intro array m harray
  show (∃ length, (eng.stopping S).answer (.get array .length (.object array)) m = _) ∨ _
  by_cases henters : S.enters (.get array .length (.object array)) m = true
  · exact .inr ⟨_, Engine.stopping_of_enters henters⟩
  · have hlast : Run.final (eng.answer (.get array .length (.object array)) m) = m := by
      rcases h array m harray with ⟨length, hget⟩ | ⟨e, hget⟩
      · exact congrArg Run.final hget
      · exact congrArg Run.final hget
    by_cases hleaves : S.leaves (.get array .length (.object array)) m
        (Run.final (eng.answer (.get array .length (.object array)) m)) = true
    · refine .inr ⟨.outOfFuel, (Engine.stopping_of_leaves henters hleaves).trans ?_⟩
      rw [hlast]
    · have hsame := Engine.stopping_of_passes henters hleaves
      rcases h array m harray with ⟨length, hget⟩ | ⟨e, hget⟩
      · exact .inl ⟨length, hsame.trans hget⟩
      · exact .inr ⟨e, hsame.trans hget⟩

theorem Engine.Meets.stopping {eng : Engine} {S : Stops} (h : eng.Meets D) :
    (eng.stopping S).Meets D := by
  have hanswers : Engine.Answers D eng := h.answers
  exact ⟨hanswers.stopping, fun hD => (h.lengths hD).stopping⟩

/-- Stopping more often keeps one run the beginning of another. -/
theorem Engine.Cuts.stopping {P : Machine → Prop} {eng eng' : Engine} {S T : Stops}
    (h : eng.Cuts D P eng') (heng' : eng'.Answers D) (hST : S.Covers T) (hS : S.Within P) :
    (eng.stopping S).Cuts D P (eng'.stopping T) := by
  refine ⟨h.limit, fun {α} μ m hsize hμ hm => ?_⟩
  have hmeets := (heng' μ m hμ hm).follows
  by_cases henters : S.enters μ m = true
  · refine .inr ⟨m, Engine.stopping_of_enters henters, hS.enters μ m henters, .refl hm, ?_⟩
    by_cases henters' : T.enters μ m = true
    · rw [Engine.stopping_of_enters henters']
      exact .refl hm
    · rw [Engine.final_stopping henters']
      exact hmeets
  · have henters' : ¬ T.enters μ m = true := fun ht => henters (hST.enters μ m ht)
    rcases h.answers μ m hsize hμ hm with hsame | ⟨s, hstop, hs, hbefore, hafter⟩
    · by_cases hleaves : S.leaves μ m (Run.final (eng.answer μ m)) = true
      · refine .inr ⟨_, Engine.stopping_of_leaves henters hleaves, hS.leaves _ _ _ hleaves, ?_, ?_⟩
        · rw [hsame]
          exact hmeets
        · rw [Engine.final_stopping henters', hsame]
          exact .refl hmeets.sound
      · refine .inl ?_
        rw [Engine.stopping_of_passes henters hleaves, hsame]
        rw [hsame] at hleaves
        exact (Engine.stopping_of_passes henters' fun ht => hleaves (hST.leaves _ _ _ ht)).symm
    · refine .inr ⟨s, ?_, hs, hbefore, ?_⟩
      · by_cases hleaves : S.leaves μ m (Run.final (eng.answer μ m)) = true
        · rw [Engine.stopping_of_leaves henters hleaves, hstop]
          rfl
        · rw [Engine.stopping_of_passes henters hleaves, hstop]
      · rw [Engine.final_stopping henters']
        exact hafter

namespace Stops

variable {S T : Stops}

theorem engine_prompt (S : Stops) (n : Nat) : (S.engine n).Prompt := by
  have hover (n : Nat) : (S.engine n).Over (S.engine (n - 1)) := by
    intro α μ m
    cases n with
    | zero => exact .inr ⟨_, m, rfl, .inl rfl⟩
    | succ n =>
      by_cases henters : S.enters μ m = true
      · exact .inr ⟨_, m, Engine.stopping_of_enters henters, .inl rfl⟩
      · by_cases hleaves : S.leaves μ m (Run.final ((S.engine n).step μ m)) = true
        · exact .inr ⟨_, _, Engine.stopping_of_leaves henters hleaves, .inr rfl⟩
        · exact .inl (Engine.stopping_of_passes henters hleaves)
  exact .of_over (hover n) (hover (n - 1))

section

variable (hD : D.scripted) (hall : ∀ d, D.allows d)

include hD hall

theorem routine_step {μ : Method α} (hμ : D.Admits b μ) :
    Routine D b (μ.Ensures D) fun eng => eng.step μ := by
  have hallowed : μ.Allowed D := by
    cases μ <;> first | exact hall _ | trivial
  exact .step hD μ hμ hallowed

theorem engine_meets (S : Stops) (n : Nat) : (S.engine n).Meets D := by
  refine ⟨?_, fun _ => S.engine_prompt n⟩
  induction n with
  | zero => exact fun _ _ _ hm => .refl hm
  | succ n ih =>
    have heng : (S.engine n).Meets D := ⟨ih, fun _ => S.engine_prompt n⟩
    have hstep : Engine.Answers D ⟨n + 1, fun μ => (S.engine n).step μ⟩ := fun μ m hμ hm =>
      (routine_step hD hall hμ).meets heng (Nat.le_refl _) hm
    intro α μ m hμ hm
    exact hstep.stopping μ m hμ hm

variable (hP : D.Unsourced fun _ => True)

include hP

/-- A run that stops more often is the beginning of the other. -/
theorem engine_cuts (h : S.Covers T) (n : Nat) :
    (S.engine n).Cuts D (fun _ => True) (T.engine n) := by
  induction n with
  | zero => exact ⟨rfl, fun _ _ _ _ _ => .inl rfl⟩
  | succ n ih =>
    have hS := engine_meets hD hall S n
    have hT := engine_meets hD hall T n
    refine Engine.Cuts.stopping ⟨rfl, fun μ m hsize hμ hm => ?_⟩ (fun μ m hμ hm => ?_) h
      ⟨fun _ _ _ => trivial, fun _ _ _ _ => trivial⟩
    · exact (routine_step hD hall hμ).cuts hP hS hT ih hsize (Nat.le_refl _) hm
    · exact (routine_step hD hall hμ).meets hT (Nat.le_refl _) hm

/-- **What a discipline keeps is kept from every moment of a run to every later one.** -/
theorem follows (h : S.Covers T) {n : Nat} {μ : Method α} {m : Machine}
    (hsize : Intrinsic.all.length ≤ m.size) (hμ : D.Admits m.size μ) (hm : D.Sound m) :
    D.Follows m (Run.final ((S.engine n).answer μ m)) ∧
      D.Follows (Run.final ((S.engine n).answer μ m)) (Run.final ((T.engine n).answer μ m)) := by
  have hfirst := ((engine_meets hD hall S n).answers μ m hμ hm).follows
  refine ⟨hfirst, ?_⟩
  rcases (engine_cuts hD hall hP h n).answers μ m hsize hμ hm with hsame | ⟨s, hstop, -, -, hafter⟩
  · rw [← hsame]
    exact .refl hfirst.sound
  · rw [hstop]
    exact hafter

end

end Stops

/-! ## The history of a realm -/

/-- Two moments of one operation on existing objects of a machine, in their order. -/
inductive Machine.Moments (m : Machine) : Machine → Machine → Prop where
  | intro {α : Type} (n : Nat) (μ : Method α) (hlive : ∀ r, refers μ r → r.index < m.size)
      {S T : Stops} (h : S.Covers T) :
      Moments m (Run.final ((S.engine n).answer μ m)) (Run.final ((T.engine n).answer μ m))

/-- The machine is that of a realm at a moment of its history. -/
inductive Machine.Attained : Machine → Prop where
  | initial (options : Options) : Attained (Session.initialMachine options)
  | moment {m m₁ m₂ : Machine} (hm : Attained m) (h : m.Moments m₁ m₂) : Attained m₂

/-- The first machine comes before the second in some operation. -/
def Machine.Before (m₁ m₂ : Machine) : Prop := ∃ m, Machine.Attained m ∧ m.Moments m₁ m₂

namespace Stops

/-- Stops at once. -/
def always : Stops := ⟨fun _ _ => true, fun _ _ _ => true⟩

theorem always_covers (S : Stops) : always.Covers S := ⟨fun _ _ _ => rfl, fun _ _ _ _ => rfl⟩

theorem final_always (n : Nat) (μ : Method α) (m : Machine) :
    Run.final ((always.engine n).answer μ m) = m := by
  cases n <;> rfl

end Stops

section Answers

variable {m : Machine} (n : Nat) (μ : Method α) (hlive : ∀ r, refers μ r → r.index < m.size)

include hlive

/-- An operation begins before it ends. -/
theorem Machine.Moments.ends : m.Moments m (Run.final ((engine n).answer μ m)) := by
  have hmoments := Machine.Moments.intro n μ hlive (Stops.always_covers .never)
  rwa [Stops.final_always, Stops.engine_never] at hmoments

variable (hm : m.Attained)

include hm

theorem Machine.Attained.answer : (Run.final ((engine n).answer μ m)).Attained :=
  .moment hm (.ends n μ hlive)

theorem Machine.Before.answer : m.Before (Run.final ((engine n).answer μ m)) :=
  ⟨m, hm, .ends n μ hlive⟩

end Answers

section Evaluation

variable {e : Expr} (n : Nat) (he : ∀ r, ¬ e.RefersTo r) {m : Machine} (hm : m.Attained)

include he hm

/-- An expression that refers to no object can be evaluated anywhere in a history. -/
theorem Machine.Before.evaluate :
    m.Before (Run.final ((engine n).answer (.evaluate none e) m)) := by
  refine .answer n (.evaluate none e) (fun r hr => ?_) hm
  rcases hr with ⟨_, hframe, -⟩ | hexpr
  · cases hframe
  · exact absurd hexpr (he r)

theorem Machine.Attained.evaluate :
    (Run.final ((engine n).answer (.evaluate none e) m)).Attained := by
  obtain ⟨m₀, hm₀, hmoments⟩ := Machine.Before.evaluate n he hm
  exact .moment hm₀ hmoments

end Evaluation

/-- What comes later in a history belongs to it. -/
theorem Machine.Attained.of_before {m m' : Machine} (hm : m.Attained)
    (h : Relation.ReflTransGen Machine.Before m m') : m'.Attained := by
  induction h with
  | refl => exact hm
  | tail _ hlast _ =>
    obtain ⟨m₀, hm₀, hmoments⟩ := hlast
    exact .moment hm₀ hmoments

section History

variable (hD : D.scripted) (hall : ∀ d, D.allows d) (hP : D.Unsourced fun _ => True)
  (hknows : ∀ b (r : Ref), r.index < b → D.knows b r)

include hD hall hP hknows

theorem Machine.Moments.follows {m m₁ m₂ : Machine} (h : m.Moments m₁ m₂)
    (hsize : Intrinsic.all.length ≤ m.size) (hm : D.Sound m) :
    D.Follows m m₁ ∧ D.Follows m₁ m₂ := by
  cases h with
  | intro n μ hlive hcovers =>
    have hμ : D.Seen m.size μ := fun r hr => hknows _ r (hlive r hr)
    exact Stops.follows hD hall hP hcovers hsize hμ.admits hm

variable (hbase : D.base ≤ Intrinsic.all.length)

include hbase

theorem Machine.Attained.sound {m : Machine} (hm : m.Attained) :
    D.Sound m ∧ Intrinsic.all.length ≤ m.size := by
  induction hm with
  | initial options => exact sound_initialMachine hbase options
  | moment _ h ih =>
    obtain ⟨hbefore, hafter⟩ := h.follows hD hall hP hknows ih.2 ih.1
    exact ⟨hafter.sound, Nat.le_trans ih.2 (Nat.le_trans hbefore.grows hafter.grows)⟩

/-- What a discipline keeps is kept through the history of a realm. -/
theorem follows_of_before {m m' : Machine} (hm : m.Attained)
    (h : Relation.ReflTransGen Machine.Before m m') : D.Follows m m' := by
  induction h with
  | refl => exact .refl (hm.sound hD hall hP hknows hbase).1
  | tail _ hlast ih =>
    obtain ⟨m₀, hm₀, hmoments⟩ := hlast
    obtain ⟨hsound, hsize⟩ := hm₀.sound hD hall hP hknows hbase
    exact ih.trans (hmoments.follows hD hall hP hknows hsize hsound).2

end History

end ObjectModel
