import ObjectModel.Proofs.Agreement

/-!
# The context of serialization

Serialization enters a composite before it looks inside and leaves it afterwards, whether a value
or a throw comes back, so every run leaves the context as it found it.  In between, the depth is
the number of composites being visited, in every state in which a method is entered or left, and
a throw from a hook passes through unchanged.
-/

namespace ObjectModel

namespace SourceContext

/-- The composites being visited are a set, and the depth is their number. -/
def Balanced (c : SourceContext) : Prop := c.visiting.Nodup ∧ c.depth = c.visiting.length

instance (c : SourceContext) : Decidable c.Balanced := inferInstanceAs (Decidable (_ ∧ _))

theorem leave_enter (c : SourceContext) (r : Ref) : (c.enter r).leave r = c := by
  cases c
  simp [enter, leave]

theorem Balanced.enter {c : SourceContext} {r : Ref} (h : c.Balanced)
    (hr : c.isVisiting r = false) : (c.enter r).Balanced := by
  obtain ⟨hnodup, hdepth⟩ := h
  refine ⟨List.nodup_cons.2 ⟨?_, hnodup⟩, ?_⟩
  · simpa [isVisiting] using hr
  · simp [SourceContext.enter, hdepth]

end SourceContext

/-! ## Runs restore the context -/

namespace Discipline

/-- Runs leave the context as they found it. -/
def context : Discipline where
  knows _ _ := True
  allows _ := True
  scripted := True
  prompt := False
  keeps m m' := m'.source = m.source
  knows_mono _ h := h
  knows_fresh _ _ := trivial
  knows_intrinsic _ _ := trivial
  keeps_refl _ := rfl
  keeps_trans h h' := h'.trans h
  keeps_change {m m'} h := by
    cases h with
    | beside _ _ _ hsource => exact hsource
    | allocate o _ _ => rfl
    | iteration proto next source _ _ =>
      exact (Machine.Framed.newIterationObject proto next source m).source
    | symbol description => rfl
    | revise r _ => rfl
    | relink r p _ _ _ => rfl
    | install _ => exact (Machine.Framed.install m).source
  keeps_visit {m m' r} _ h := by
    show m'.source.leave r = m.source
    rw [show m'.source = m.source.enter r from h]
    exact m.source.leave_enter r
  keeps_settle _ _ _ _ _ _ h := h

theorem context_sound (m : Machine) : context.Sound m :=
  ⟨Nat.zero_le _, fun _ _ => trivial⟩

theorem context_seen {α : Type} [HasRefs α] (b : Nat) (a : α) : context.Seen b a :=
  fun _ _ => trivial

theorem context_keeps_balanced : context.Keeps fun m => m.source.Balanced where
  run h hm := by
    rw [show _ = _ from h]
    exact hm
  enter hr hm := hm.enter hr

/-- Nothing is kept and nothing is caught. -/
def plain : Discipline := { context.loose with scripted := False }

end Discipline

/-! ## The states in between -/

/-- The check that the context is balanced. -/
def isBalanced {α : Type} (_ : Method α) (m : Machine) : Bool := decide m.source.Balanced

section Watching

variable (otherwise : {α : Type} → Method α → Run α)

theorem engine_agreesOn_balanced (n : Nat) :
    (engine n).AgreesOn .context (fun m => m.source.Balanced)
      (watchedEngine isBalanced otherwise n) :=
  watchedEngine_agrees otherwise trivial (fun _ => trivial) Discipline.context_keeps_balanced
    (fun _ _ _ h => by simpa [isBalanced] using h) n

/-- A session step neither fails the check nor unbalances the context. -/
theorem runStep_watched {m : Machine} (hm : m.source.Balanced) (n : Nat) (e : Expr) :
    Session.runStep (watchedEngine isBalanced otherwise n) m e = Session.runStep (engine n) m e ∧
      (Session.runStep (engine n) m e).2.source.Balanced := by
  have hjudge : Routine .context (Session.quiet m).size Routine.Any
      fun eng => Session.judge eng e := .judge trivial (Discipline.context_seen _ _)
  have heng : (engine n).Meets .context := engine_meets trivial (fun _ => trivial) n
  have hsound := Discipline.context_sound (Session.quiet m)
  have hsame : Session.judge (engine n) e (Session.quiet m) =
      Session.judge (watchedEngine isBalanced otherwise n) e (Session.quiet m) :=
    hjudge.agrees Discipline.context_keeps_balanced heng (engine_agreesOn_balanced otherwise n)
      (Nat.le_refl _) hsound hm
  have hkeeps := (hjudge.meets heng (Nat.le_refl _) hsound).follows.keeps
  constructor
  · simp only [Session.runStep, hsame]
  · have hlast : (Session.runStep (engine n) m e).2 =
        Run.final (Session.judge (engine n) e (Session.quiet m)) := by
      unfold Session.runStep
      cases Session.judge (engine n) e (Session.quiet m) <;> rfl
    rw [hlast]
    exact Discipline.context_keeps_balanced.run hkeeps hm

theorem runSteps_watched (n : Nat) (steps : List Expr) {m : Machine} (hm : m.source.Balanced) :
    Session.runSteps (watchedEngine isBalanced otherwise n) m steps =
      Session.runSteps (engine n) m steps := by
  induction steps generalizing m with
  | nil => rfl
  | cons e rest ih =>
    obtain ⟨hstep, hbalanced⟩ := runStep_watched otherwise hm n e
    simp only [Session.runSteps, hstep, ih hbalanced]

end Watching

theorem source_initialMachine (options : Options) :
    (Session.initialMachine options).source = .idle := by
  obtain ⟨a, m, hrun, hframed⟩ := Run.Frames.start (.bare options)
  unfold Session.initialMachine
  rw [hrun]
  exact hframed.source

/-! ## Serialization -/

/-- An engine whose answers never take an object away. -/
def Engine.Grows (eng : Engine) : Prop :=
  ∀ {α : Type} (μ : Method α) (m : Machine), m.size ≤ (Run.final (eng.answer μ m)).size

theorem engine_grows (n : Nat) : (engine n).Grows := by
  intro α μ m
  have hmeets : (engine n).Meets .context := engine_meets trivial (fun _ => trivial) n
  exact (hmeets.answers μ m (fun _ _ => trivial) (Discipline.context_sound m)).follows.grows

theorem Engine.Grows.meets_plain {eng : Engine} (h : eng.Grows) : eng.Meets .plain := by
  refine ⟨fun {α} μ m _ _ => ?_, False.elim⟩
  have hgrows := h μ m
  have hfollows : Discipline.plain.Follows m (Run.final (eng.answer μ m)) :=
    ⟨trivial, ⟨Nat.zero_le _, fun _ _ => trivial⟩, hgrows⟩
  cases hres : eng.answer μ m with
  | ok a m' =>
    rw [hres] at hfollows
    refine ⟨hfollows, ?_⟩
    cases μ <;> first | exact fun _ _ => trivial | trivial
  | error e m' =>
    rw [hres] at hfollows
    cases e with
    | thrown v => exact ⟨hfollows, fun _ _ => trivial⟩
    | outOfFuel => exact hfollows

/-- **Serialization is transparent.**  For every builtin function, `uneval` and all `toSource`
methods among them: the context at the end is that of the beginning, however the call ends; from a
balanced context every state in which a method is entered or left is balanced, and so is every
such state of every session; and whatever the hooks do, as long as they take no object away, the
first throw that reaches the call is its result. -/
theorem builtin_restores_context (f : Native) (this : Value) (arguments : List Value) :
    (∀ n m, (Run.final ((engine n).runNative f this arguments m)).source = m.source) ∧
      (∀ n m (otherwise : {α : Type} → Method α → Run α), m.source.Balanced →
        (watchedEngine isBalanced otherwise n).runNative f this arguments m =
          (engine n).runNative f this arguments m) ∧
      (∀ options steps (otherwise : {α : Type} → Method α → Run α),
        Session.runSteps (watchedEngine isBalanced otherwise Session.fuel)
            (Session.initialMachine options) steps =
          Session.runSteps Session.root (Session.initialMachine options) steps) ∧
      (∀ n, (engine n).Grows) ∧
      ∀ (eng : Engine) (m : Machine), eng.Grows →
        Engine.Relays (fun eng => eng.runNative f this arguments) eng m := by
  have hroutine (m : Machine) : Routine .context m.size Discipline.context.Seen
      fun eng => eng.runNative f this arguments :=
    .runNative f (Discipline.context_seen _ _) (Discipline.context_seen _ _)
  have heng (n : Nat) : (engine n).Meets .context := engine_meets trivial (fun _ => trivial) n
  refine ⟨fun n m => ?_, fun n m otherwise hm => ?_, fun options steps otherwise => ?_,
    engine_grows, fun eng m hgrows => ?_⟩
  · exact ((hroutine m).meets (heng n) (Nat.le_refl _) (Discipline.context_sound m)).follows.keeps
  · exact ((hroutine m).agrees Discipline.context_keeps_balanced (heng n)
      (engine_agreesOn_balanced otherwise n) (Nat.le_refl _) (Discipline.context_sound m) hm).symm
  · refine runSteps_watched otherwise Session.fuel steps ?_
    rw [source_initialMachine]
    decide
  · have hplain : Routine .plain m.size Discipline.plain.Seen
        fun eng => eng.runNative f this arguments :=
      .runNative f (fun _ _ => trivial) fun _ _ => trivial
    exact hplain.relays id hgrows.meets_plain (Nat.le_refl _)
      ⟨Nat.zero_le _, fun _ _ => trivial⟩

end ObjectModel
