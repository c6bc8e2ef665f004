import ObjectModel.Proofs.Routine.Step

/-!
# Routines over two engines

A routine sees an engine only through its answers, so it cannot tell apart two engines that
agree wherever the routine asks.  From this follow two facts about watched engines and thrown
values: a watched engine runs like the unwatched one if the check holds along the way
(`watchedEngine_agrees`), and a routine that catches nothing gives a thrown answer on as it is
(`Routine.relays`).
-/

namespace ObjectModel

variable {D : Discipline} {α : Type} {b : Nat} {Q : Nat → α → Prop} {op : Engine → Run α}

/-! ## Agreement along an invariant -/

/-- Two engines give one answer in every state with the property. -/
def Engine.AgreesOn (D : Discipline) (I : Machine → Prop) (eng eng' : Engine) : Prop :=
  eng.limit = eng'.limit ∧ ∀ {β : Type} (μ : Method β) (m : Machine),
    D.Admits m.size μ → D.Sound m → I m → eng.answer μ m = eng'.answer μ m

/-- A property of machines that runs keep, also inside of composites. -/
structure Discipline.Keeps (D : Discipline) (I : Machine → Prop) : Prop where
  run : ∀ {m m' : Machine}, D.keeps m m' → I m → I m'
  enter : ∀ {m : Machine} {r : Ref}, m.source.isVisiting r = false → I m →
    I { m with source := m.source.enter r }

theorem Routine.agrees {I : Machine → Prop} (h : Routine D b Q op) (hI : D.Keeps I)
    {eng eng' : Engine} (heng : eng.Meets D) (hagree : eng.AgreesOn D I eng') {m : Machine}
    (hb : b ≤ m.size) (hm : D.Sound m) (hIm : I m) : op eng m = op eng' m := by
  induction h generalizing m with
  | act x hx => rfl
  | bind hx hf ihx ihf =>
    have hmeets := hx.meets heng hb hm
    dsimp only
    rw [Run.bind_apply, Run.bind_apply, ← ihx hb hm hIm]
    split
    · next a m' hres =>
      rw [hres] at hmeets
      have hsize := Nat.le_trans hb hmeets.1.grows
      exact ihf _ a hsize hmeets.2 (Nat.le_refl _) hmeets.1.sound (hI.run hmeets.1.keeps hIm)
    · rfl
  | answer μ hμ => exact hagree.2 μ m (hμ.mono hb) hm hIm
  | limit _ _ ih =>
    dsimp only
    rw [← hagree.1]
    exact ih eng.limit hb hm hIm
  | attempt _ _ ih =>
    simp only [Run.attempt]
    rw [ih hb hm hIm]
  | visit r placeholder _ ih =>
    dsimp only
    rw [Engine.visit_apply, Engine.visit_apply]
    split
    · rfl
    · next hr =>
      have hentered := hI.enter (r := r) (by simpa using hr) hIm
      rw [ih (m := { m with source := m.source.enter r }) hb hm hentered]
  | settle _ _ ih =>
    dsimp only
    rw [Run.bind_apply, Run.bind_apply, ih hb hm hIm]

/-- **A watched engine runs like the unwatched one** where the check holds in every state that
runs can reach. -/
theorem watchedEngine_agrees {I : Machine → Prop}
    {check : {β : Type} → Method β → Machine → Bool} (otherwise : {β : Type} → Method β → Run β)
    (hD : D.scripted) (hall : ∀ d, D.allows d) (hI : D.Keeps I)
    (hcheck : ∀ {β : Type} (μ : Method β) (m : Machine), D.Admits m.size μ → I m →
      check μ m = true) (n : Nat) :
    (engine n).AgreesOn D I (watchedEngine check otherwise n) := by
  induction n with
  | zero => exact ⟨rfl, fun _ _ _ _ _ => rfl⟩
  | succ n ih =>
    refine ⟨rfl, fun μ m hμ hm hIm => ?_⟩
    have hallowed : μ.Allowed D := by
      cases μ <;> first | exact hall _ | trivial
    have hstep := Routine.step hD μ hμ hallowed
    have heng : (engine n).Meets D := engine_meets hD hall n
    have heq : (engine n).step μ m = (watchedEngine check otherwise n).step μ m :=
      hstep.agrees hI heng ih (Nat.le_refl _) hm hIm
    -- the last state has the property as well, so neither check fails
    have hfollows := (hstep.meets heng (Nat.le_refl _) hm).follows
    have hfirst := hcheck μ m hμ hIm
    have hlast := hcheck μ _ (hμ.mono hfollows.grows) (hI.run hfollows.keeps hIm)
    show (engine n).step μ m = _
    simp only [watchedEngine, ← heq, hfirst, hlast, Bool.and_self, if_true]

/-! ## Thrown answers -/

/-- The second engine gives every value that the first gives; where the first throws it may do
anything. -/
def Engine.ReturnsLike (eng eng' : Engine) : Prop :=
  eng'.limit = eng.limit ∧ ∀ {β : Type} (μ : Method β) (m : Machine) (a : β) (m' : Machine),
    eng.answer μ m = .ok a m' → eng'.answer μ m = .ok a m'

/-- Either no answer that the run got was a throw, so that the run does not depend on throws at
all, or the first throw that it got, whatever that is, is its own result; only the context of
serialization is adjusted. -/
def Engine.Relays (op : Engine → Run α) (eng : Engine) (m : Machine) : Prop :=
  (∀ eng', eng.ReturnsLike eng' → op eng' m = op eng m) ∨
    ∃ (β : Type) (μ : Method β) (m₁ : Machine) (restore : SourceContext → SourceContext),
      (∃ e m₂, eng.answer μ m₁ = .error e m₂) ∧
        ∀ eng', eng.ReturnsLike eng' → ∀ e m₂, eng'.answer μ m₁ = .error e m₂ →
          op eng' m = .error e { m₂ with source := restore m₂.source }

theorem Engine.ReturnsLike.refl (eng : Engine) : eng.ReturnsLike eng := ⟨rfl, fun _ _ _ _ h => h⟩

/-- **A routine that catches nothing gives a thrown answer on as it is.** -/
theorem Routine.relays (hD : ¬ D.scripted) (h : Routine D b Q op) {eng : Engine}
    (heng : eng.Meets D) {m : Machine} (hb : b ≤ m.size) (hm : D.Sound m) :
    Engine.Relays op eng m := by
  induction h generalizing m with
  | act x hx => exact .inl fun _ _ => rfl
  | @bind _ _ _ _ _ x f hx _ ihx ihf =>
    have hmeets := hx.meets heng hb hm
    rcases ihx hb hm with hsame | ⟨β, μ, m₁, restore, hthrows, hrelay⟩
    · cases hres : x eng m with
      | error e m₂ =>
        refine .inl fun eng' h => ?_
        dsimp only
        rw [Run.bind_apply, Run.bind_apply, hsame eng' h, hres]
      | ok a m' =>
        rw [hres] at hmeets
        have hnext {eng' : Engine} (h : eng.ReturnsLike eng') :
            (x eng' >>= fun a => f a eng') m = f a eng' m' := by
          rw [Run.bind_apply, hsame eng' h, hres]
        have hsize := Nat.le_trans hb hmeets.1.grows
        -- the rest of the run starts with a state and a value that no throw has touched
        rcases ihf _ a hsize hmeets.2 (Nat.le_refl _) hmeets.1.sound with
          hsame' | ⟨β, μ, m₁, restore, hthrows, hrelay⟩
        · exact .inl fun eng' h =>
            ((hnext h).trans (hsame' eng' h)).trans (hnext (.refl eng)).symm
        · exact .inr ⟨β, μ, m₁, restore, hthrows, fun eng' h e m₂ hthrown =>
            (hnext h).trans (hrelay eng' h e m₂ hthrown)⟩
    · refine .inr ⟨β, μ, m₁, restore, hthrows, fun eng' h e m₂ hthrown => ?_⟩
      dsimp only
      rw [Run.bind_apply, hrelay eng' h e m₂ hthrown]
  | answer μ hμ =>
    cases hres : eng.answer μ m with
    | ok a m' => exact .inl fun eng' h => (h.2 μ m a m' hres).trans hres.symm
    | error e m₂ => exact .inr ⟨_, μ, m, id, ⟨e, m₂, hres⟩, fun _ _ _ _ h => h⟩
  | @limit _ _ _ f _ _ ih =>
    have hlimit {eng' : Engine} (h : eng.ReturnsLike eng') :
        f eng'.limit eng' m = f eng.limit eng' m := by rw [h.1]
    rcases ih eng.limit hb hm with hsame | ⟨β, μ, m₁, restore, hthrows, hrelay⟩
    · exact .inl fun eng' h => (hlimit h).trans (hsame eng' h)
    · exact .inr ⟨β, μ, m₁, restore, hthrows, fun eng' h e m₂ hthrown =>
        (hlimit h).trans (hrelay eng' h e m₂ hthrown)⟩
  | attempt hD' _ _ => exact absurd hD' hD
  | visit r placeholder _ ih =>
    unfold Engine.Relays
    simp only [Engine.visit_apply]
    split
    · exact .inl fun _ _ => rfl
    · rcases ih (m := { m with source := m.source.enter r }) hb hm with
        hsame | ⟨β, μ, m₁, restore, hthrows, hrelay⟩
      · exact .inl fun eng' h => by rw [hsame eng' h]
      · refine .inr ⟨β, μ, m₁, fun c => (restore c).leave r, hthrows, ?_⟩
        intro eng' h e m₂ hthrown
        rw [hrelay eng' h e m₂ hthrown]
  | settle _ _ ih =>
    rcases ih hb hm with hsame | ⟨β, μ, m₁, restore, hthrows, hrelay⟩
    · refine .inl fun eng' h => ?_
      dsimp only
      rw [Run.bind_apply, Run.bind_apply, hsame eng' h]
    · refine .inr ⟨β, μ, m₁, restore, hthrows, fun eng' h e m₂ hthrown => ?_⟩
      dsimp only
      rw [Run.bind_apply, hrelay eng' h e m₂ hthrown]

end ObjectModel
