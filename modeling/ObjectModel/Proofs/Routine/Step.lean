import ObjectModel.Proofs.Routine.Evaluation
import ObjectModel.Session

/-!
# Every run keeps to a discipline

Answering one method is a routine, so by induction on fuel the engine meets every scripted
discipline that allows all descriptors (`engine_meets`), and so do sessions.  A watched engine
leaves a method to something else when a check fails as the method is entered or left; it meets
disciplines that the check ensures.
-/

namespace ObjectModel

open Discipline

variable {D : Discipline} {b : Nat}

/-- A definition is of a descriptor that the discipline allows. -/
def Method.Allowed (D : Discipline) : {α : Type} → Method α → Prop
  | _, .defineOwnProperty _ _ d => D.allows d
  | _, _ => True

namespace Routine

theorem runFunction {f : Ref} {receiver : Value} {arguments : List Value} {newTarget : Option Ref}
    (hr : D.Seen b receiver) (ha : D.Seen b arguments) (hn : D.Seen b newTarget) :
    Routine D b D.Seen fun eng => eng.runFunction f receiver arguments newTarget := by
  refine .bind (.kind f) fun b₁ kind h₁ hkind => ?_
  cases kind with
  | function data =>
    refine .ite (fun _ => .fail _) fun _ => ?_
    have hbehaviour : D.Seen b₁ data.behaviour := hkind
    cases hd : data.behaviour with
    | native f => exact .runNative f (hr.mono h₁) (ha.mono h₁)
    | advances iterator => exact .objectValue (.advance iterator)
    | script f =>
      rw [hd] at hbehaviour
      exact .runScript hbehaviour (seen_frame.2 ⟨hr.mono h₁, ha.mono h₁, hn.mono h₁⟩)
  | _ => exact .fail _

theorem constructFunction {f newTarget : Ref} {arguments : List Value} (ha : D.Seen b arguments)
    (hn : D.Seen b newTarget) :
    Routine D b D.Seen fun eng => eng.constructFunction f arguments newTarget := by
  refine .bind (.runFunction seen_undefined ha (seen_some.2 hn)) fun b₁ v _ hv => ?_
  cases v with
  | object r => exact .give (seen_ref.2 (seen_object.1 hv))
  | _ => exact .fail _

/-- A proxy answers by its traps, any other object by the rules of its kind. -/
theorem byKind {α : Type} {Q : Nat → α → Prop} {o : Ref} {x : Engine → Run α}
    {byTraps : Ref → TrapTable → Engine → Run α}
    (hproxy : ∀ b' target traps, b ≤ b' → (traps.exposes = true → D.Seen b' target) →
      D.Seen b' traps →
      Routine D b' Q (byTraps target traps))
    (hx : ∀ b', b ≤ b' → Routine D b' Q x) :
    Routine D b Q fun eng => (do
      match ← Run.kind o with
      | .proxy target traps => byTraps target traps eng
      | _ => x eng) := by
  refine .bind (.kind o) fun b₁ kind h₁ hkind => ?_
  cases kind with
  | proxy target traps =>
    obtain ⟨ht, htraps⟩ := seen_proxy.1 hkind
    exact hproxy b₁ target traps h₁ ht htraps
  | _ => exact hx b₁ h₁

/-- **Answering one method is a routine.** -/
theorem step (hD : D.scripted) {α : Type} (μ : Method α) (hμ : D.Admits b μ)
    (hallowed : μ.Allowed D) : Routine D b (μ.Ensures D) fun eng => eng.step μ := by
  cases μ with
  | getOwnProperty o k =>
    refine .byKind (fun _ _ _ _ ht htraps => .proxyGetOwn ht htraps) fun b' hb => ?_
    exact .map (.object o) fun _ _ _ ho _ h₂ => (ho.mono h₂).ownDescriptor k
  | defineOwnProperty o k d =>
    have ho : D.Seen b o := fun r hr => hμ r (Or.inl hr)
    have hd : D.Seen b d := fun r hr => hμ r (Or.inr hr)
    exact .byKind (fun _ _ _ hb ht htraps => .proxyDefine ht htraps (hd.mono hb))
      fun _ hb => .ordinaryDefine (ho.mono hb) (hd.mono hb) hallowed
  | hasProperty o k =>
    have ho : D.Seen b o := hμ
    exact .byKind (fun _ _ _ _ ht htraps => .proxyHas ht htraps) fun _ hb =>
      .ordinaryHas (ho.mono hb)
  | get o k receiver =>
    have ho : D.Seen b o := fun r hr => hμ r (Or.inl hr)
    have hr : D.Seen b receiver := fun r hr => hμ r (Or.inr hr)
    exact .byKind (fun _ _ _ hb ht htraps => .proxyGet ht htraps (hr.mono hb)) fun _ hb =>
      .ordinaryGet (ho.mono hb) (hr.mono hb)
  | set o k v receiver =>
    have ho : D.Seen b o := fun r hr => hμ r (Or.inl hr)
    have hv : D.Seen b v := fun r hr => hμ r (Or.inr (Or.inl hr))
    have hr : D.Seen b receiver := fun r hr => hμ r (Or.inr (Or.inr hr))
    exact .byKind (fun _ _ _ hb ht htraps => .proxySet ht htraps (hv.mono hb) (hr.mono hb))
      fun _ hb => .ordinarySet (ho.mono hb) (hv.mono hb) (hr.mono hb)
  | delete o k =>
    have ho : D.Seen b o := hμ
    exact .byKind (fun _ _ _ _ ht htraps => .proxyDelete ht htraps) fun _ hb =>
      .ordinaryDelete (ho.mono hb)
  | ownKeys o =>
    exact .byKind (fun _ _ _ _ ht htraps => .proxyOwnKeys ht htraps) fun _ _ =>
      .mapAny (.object o) _
  | setPrototypeOf o p =>
    have ho : D.Seen b o := fun r hr => hμ r (Or.inl hr)
    have hp : D.Seen b p := fun r hr => hμ r (Or.inr hr)
    exact .byKind (fun _ _ _ hb ht htraps => .proxySetPrototypeOf ht htraps (hp.mono hb))
      fun _ hb => .ordinarySetPrototypeOf (ho.mono hb) (hp.mono hb)
  | call f receiver arguments =>
    have hr : D.Seen b receiver := fun r hr => hμ r (Or.inl hr)
    have ha : D.Seen b arguments := fun r hr => hμ r (Or.inr hr)
    exact .byKind (fun _ _ _ hb ht htraps => .proxyCall ht htraps (hr.mono hb) (ha.mono hb))
      fun _ hb => .runFunction (hr.mono hb) (ha.mono hb) seen_none
  | construct f arguments newTarget =>
    have ha : D.Seen b arguments := fun r hr => hμ r (Or.inl hr)
    have hn : D.Seen b newTarget := fun r hr => hμ r (Or.inr hr)
    exact .byKind (fun _ _ _ hb ht htraps => .proxyConstruct ht htraps (ha.mono hb) (hn.mono hb))
      fun _ hb => .constructFunction (ha.mono hb) (hn.mono hb)
  | evaluate frame e =>
    exact .evaluate hD (fun r hr => hμ r (Or.inl hr)) fun r hr => hμ r (Or.inr hr)

/-! ## Sessions -/

theorem thrownMessage (hD : D.scripted) {v : Value} (hv : D.Seen b v) :
    Routine D b Any fun eng => Session.thrownMessage eng v := by
  refine .bind (.attempt hD (.toText hv)) fun b₁ outcome _ _ => ?_
  cases outcome <;> exact .done _

theorem showThrown (hD : D.scripted) {v : Value} (hv : D.Seen b v) :
    Routine D b Any fun eng => Session.showThrown eng v := by
  refine .bind .heap fun b₁ h h₁ _ => ?_
  cases Session.errorKind? h v with
  | some kind => exact .mapAny (.thrownMessage hD (hv.mono h₁)) _
  | none =>
    exact .bind (.showValue v) fun _ _ h₂ _ =>
      .mapAny (.thrownMessage hD ((hv.mono h₁).mono h₂)) _

theorem showResult (result : Result) : Routine D b Any fun _ => Session.showResult result := by
  cases result with
  | value v => exact .mapAny (.showValue v) _
  | plain p => exact .done _

theorem judge (hD : D.scripted) {e : Expr} (he : D.Seen b e) :
    Routine D b Any fun eng => Session.judge eng e := by
  have hevaluate := Routine.answer (.evaluate none e) (b := b) (D := D) fun r hr =>
    hr.elim (seen_none r) (he r)
  refine .bind (.attempt hD hevaluate) fun b₁ outcome _ houtcome => ?_
  cases outcome with
  | ok result => exact .showResult result
  | error v => exact .showThrown hD houtcome

end Routine

/-! ## Engines -/

/-- The first engine answers by one step over the second, or stops before or after it. -/
def Engine.Over (eng eng' : Engine) : Prop :=
  ∀ {α : Type} (μ : Method α) (m : Machine), eng.answer μ m = eng'.step μ m ∨
    ∃ e m', eng.answer μ m = .error e m' ∧ (m' = m ∨ m' = Run.final (eng'.step μ m))

/-- An answer that a step gives without any change. -/
theorem Engine.Over.still {eng eng' : Engine} (h : eng.Over eng') {α : Type} {μ : Method α}
    {m : Machine} (hstep : (∃ a, eng'.step μ m = .ok a m) ∨ ∃ e, eng'.step μ m = .error e m) :
    eng.answer μ m = eng'.step μ m ∨ ∃ e, eng.answer μ m = .error e m := by
  have hlast : Run.final (eng'.step μ m) = m := by
    rcases hstep with ⟨a, ha⟩ | ⟨e, he⟩
    · rw [ha]
      rfl
    · rw [he]
      rfl
  rcases h μ m with hsame | ⟨e, m', herror, rfl | hm'⟩
  · exact .inl hsame
  · exact .inr ⟨e, herror⟩
  · exact .inr ⟨e, by rw [herror, hm', hlast]⟩

/-- Two steps are enough to read the length of an array, and neither of them changes anything. -/
theorem Engine.Prompt.of_over {eng eng₁ eng₂ : Engine} (h : eng.Over eng₁) (h₁ : eng₁.Over eng₂) :
    eng.Prompt := by
  intro array m harray
  obtain ⟨size, writable, hkind⟩ := Object.exists_of_isArray harray
  have hkind' : m.heap.kind array = .array size writable := hkind
  have hown : eng₂.step (.getOwnProperty array .length) m =
      .ok (some (Object.lengthDescriptor size writable)) m := by
    simp only [Engine.step, Run.bind_apply, Run.kind, hkind', Run.object, Run.pure_apply,
      Object.ownDescriptor_length hkind]
  have hget : eng₁.step (.get array .length (.object array)) m = .ok (.ofNat size) m ∨
      ∃ e, eng₁.step (.get array .length (.object array)) m = .error e m := by
    simp only [Engine.step, Run.bind_apply, Run.kind, hkind', Engine.ordinaryGet,
      Engine.getOwnProperty]
    rcases h₁.still (.inl ⟨_, hown⟩) with hsame | ⟨e, herror⟩
    · rw [hsame, hown]
      exact .inl rfl
    · rw [herror]
      exact .inr ⟨e, rfl⟩
  show (∃ length, eng.answer (.get array .length (.object array)) m = .ok (.ofNat length) m) ∨ _
  rcases h.still (hget.imp_left fun h => ⟨_, h⟩) with hsame | herror
  · rcases hget with hok | ⟨e, herror⟩
    · exact .inl ⟨size, hsame.trans hok⟩
    · exact .inr ⟨e, hsame.trans herror⟩
  · exact .inr herror

theorem engine_prompt (n : Nat) : (engine n).Prompt := by
  have hover (n : Nat) : (engine n).Over (engine (n - 1)) := by
    cases n with
    | zero => exact fun _ m => .inr ⟨_, m, rfl, .inl rfl⟩
    | succ n => exact fun _ _ => .inl rfl
  exact .of_over (hover n) (hover (n - 1))

/-- **The engine meets every scripted discipline that allows all descriptors.** -/
theorem engine_meets (hD : D.scripted) (hall : ∀ d, D.allows d) (n : Nat) :
    (engine n).Meets D := by
  refine ⟨?_, fun _ => engine_prompt n⟩
  induction n with
  | zero => exact fun _ _ _ hm => .refl hm
  | succ n ih =>
    intro α μ m hμ hm
    have heng : (engine n).Meets D := ⟨ih, fun _ => engine_prompt n⟩
    have hallowed : μ.Allowed D := by
      cases μ <;> first | exact hall _ | trivial
    exact (Routine.step hD μ hμ hallowed).meets heng (Nat.le_refl _) hm

/-- The engine that leaves a method to `otherwise` if the check fails when the method is entered
or left. -/
def watchedEngine (check : {α : Type} → Method α → Machine → Bool)
    (otherwise : {α : Type} → Method α → Run α) : Nat → Engine
  | 0 => engine 0
  | n + 1 =>
    ⟨n + 1, fun μ m =>
      if check μ m && check μ (Run.final ((watchedEngine check otherwise n).step μ m)) then
        (watchedEngine check otherwise n).step μ m
      else otherwise μ m⟩

theorem watchedEngine_prompt (check : {α : Type} → Method α → Machine → Bool) (n : Nat) :
    (watchedEngine check (fun _ => Run.outOfFuel) n).Prompt := by
  have hover (n : Nat) : (watchedEngine check (fun _ => Run.outOfFuel) n).Over
      (watchedEngine check (fun _ => Run.outOfFuel) (n - 1)) := by
    cases n with
    | zero => exact fun _ m => .inr ⟨_, m, rfl, .inl rfl⟩
    | succ n =>
      intro α μ m
      simp only [watchedEngine]
      split
      · exact .inl rfl
      · exact .inr ⟨_, m, rfl, .inl rfl⟩
  exact .of_over (hover n) (hover (n - 1))

/-- A watched engine meets a discipline whose descriptors the check ensures. -/
theorem watchedEngine_meets {check : {α : Type} → Method α → Machine → Bool} (hD : D.scripted)
    (hcheck : ∀ {α : Type} (μ : Method α) m, check μ m = true → μ.Allowed D) (n : Nat) :
    (watchedEngine check (fun _ => Run.outOfFuel) n).Meets D := by
  refine ⟨?_, fun _ => watchedEngine_prompt check n⟩
  induction n with
  | zero => exact fun _ _ _ hm => .refl hm
  | succ n ih =>
    intro α μ m hμ hm
    have heng : (watchedEngine check (fun _ => Run.outOfFuel) n).Meets D :=
      ⟨ih, fun _ => watchedEngine_prompt check n⟩
    simp only [watchedEngine]
    split
    · next h =>
      have hallowed := hcheck μ m (by simp_all)
      exact (Routine.step hD μ hμ hallowed).meets heng (Nat.le_refl _) hm
    · exact .refl hm

end ObjectModel
