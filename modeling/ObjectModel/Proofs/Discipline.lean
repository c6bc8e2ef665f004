import ObjectModel.Engine.Iterator
import ObjectModel.Engine.Source
import ObjectModel.Proofs.Change

/-!
# Disciplines and routines

A discipline says what runs are held to: which places they may refer to, which descriptors they
may define, and which relation between machines they keep.  The relation only has to be a
preorder that every single change respects and that survives the visit of a composite, and the step
of an iterator that reads the length of its array before it moves on.

A routine is an operation over an engine that is put together from runs that need no engine,
questions to the engine, visits and, where scripts are run, the catching of throws.  It refers
only to places that it was given, that it found in the heap or that it made, and each single run
in it makes changes that the discipline knows.  Over an engine that meets a discipline every
routine meets it (`Routine.meets`), so a fact about all runs needs a discipline only.
-/

namespace ObjectModel

structure Discipline where
  /-- The heap has at least so many objects. -/
  base : Nat := 0
  /-- The places that may be referred to while the heap has the given number of objects. -/
  knows : Nat → Ref → Prop
  /-- The descriptors that may be defined. -/
  allows : Descriptor → Prop
  /-- Throws may be caught. -/
  scripted : Prop
  /-- The length of an array is read without any change. -/
  prompt : Prop
  /-- What every run keeps of the machine. -/
  keeps : Machine → Machine → Prop
  knows_mono : ∀ {b b' : Nat} {r : Ref}, b ≤ b' → knows b r → knows b' r
  knows_fresh : ∀ b : Nat, base ≤ b → knows (b + 1) ⟨b⟩
  knows_intrinsic : ∀ (b : Nat) (i : Intrinsic), knows b i.ref
  keeps_refl : ∀ m, keeps m m
  keeps_trans : ∀ {m₁ m₂ m₃}, keeps m₁ m₂ → keeps m₂ m₃ → keeps m₁ m₃
  keeps_change : ∀ {m m'}, m.Change knows allows m' → keeps m m'
  keeps_visit : ∀ {m m'} {r : Ref}, m.source.isVisiting r = false →
    keeps { m with source := m.source.enter r } m' →
      keeps m { m' with source := m'.source.leave r }
  keeps_settle : ∀ {m s m'} {iterator array : Ref} {c c' : Cursor},
    m.heap.kind iterator = .iterator (.arrayValues array) c → knows m.size array → c ≤ c' →
      (prompt → (m.heap.object array).isArray = true → s = m ∧ m' = m) →
        (s = m ∨ Intrinsic.all.length ≤ m.size) → keeps m s → keeps s m' →
          keeps s (Run.final (Engine.moveCursor iterator c' m'))

namespace Discipline

variable (D : Discipline) {α β : Type}

/-- All places in `a` are known at heap size `b`. -/
def Seen [HasRefs α] (b : Nat) (a : α) : Prop := ∀ r, refers a r → D.knows b r

/-- All places that the method hands on are known at heap size `b`. -/
def Admits (b : Nat) (μ : Method α) : Prop := ∀ r, μ.Hands r → D.knows b r

/-- The machine has the objects that it must have, and refers only to places known at its own
size. -/
def Sound (m : Machine) : Prop := D.base ≤ m.size ∧ D.Seen m.size m

/-- `m'` comes after `m` in a run that keeps to the discipline. -/
structure Follows (m m' : Machine) : Prop where
  keeps : D.keeps m m'
  sound : D.Sound m'
  grows : m.size ≤ m'.size

/-- The end of a run from `m` keeps to the discipline, with a result in `Q`. -/
def Meets (Q : Nat → α → Prop) (m : Machine) : EStateM.Result Halt Machine α → Prop
  | .ok a m' => D.Follows m m' ∧ Q m'.size a
  | .error (.thrown v) m' => D.Follows m m' ∧ D.Seen m'.size v
  | .error .outOfFuel m' => D.Follows m m'

/-- The outcome of an attempt: a result in `Q` or a thrown value. -/
def Caught (Q : Nat → α → Prop) (b : Nat) : Except Value α → Prop
  | .ok a => Q b a
  | .error v => D.Seen b v

variable {D}

theorem Seen.mono [HasRefs α] {a : α} {b b' : Nat} (h : D.Seen b a) (hb : b ≤ b') : D.Seen b' a :=
  fun r hr => D.knows_mono hb (h r hr)

theorem Admits.mono {μ : Method α} {b b' : Nat} (h : D.Admits b μ) (hb : b ≤ b') :
    D.Admits b' μ := fun r hr => D.knows_mono hb (h r hr)

theorem Seen.admits {μ : Method α} {b : Nat} (h : D.Seen b μ) : D.Admits b μ := by
  intro r hr
  cases μ with
  | call f receiver arguments => exact h r (.inr hr)
  | construct f arguments newTarget => exact h r (.inr hr)
  | _ => exact h r hr

theorem Follows.refl {m : Machine} (hm : D.Sound m) : D.Follows m m :=
  ⟨D.keeps_refl m, hm, Nat.le_refl _⟩

theorem Follows.trans {m₁ m₂ m₃ : Machine} (h : D.Follows m₁ m₂) (h' : D.Follows m₂ m₃) :
    D.Follows m₁ m₃ :=
  ⟨D.keeps_trans h.keeps h'.keeps, h'.sound, Nat.le_trans h.grows h'.grows⟩

theorem Meets.after {Q : Nat → α → Prop} {m m₁ : Machine} {r : EStateM.Result Halt Machine α}
    (h : D.Follows m m₁) (hr : D.Meets Q m₁ r) : D.Meets Q m r := by
  match r with
  | .ok a m' => exact ⟨h.trans hr.1, hr.2⟩
  | .error (.thrown v) m' => exact ⟨h.trans hr.1, hr.2⟩
  | .error .outOfFuel m' => exact h.trans hr

/-- However a run ends, its last machine follows the first. -/
theorem Meets.follows {Q : Nat → α → Prop} {m : Machine} {r : EStateM.Result Halt Machine α}
    (h : D.Meets Q m r) : D.Follows m (Run.final r) := by
  match r with
  | .ok a m' => exact h.1
  | .error (.thrown v) m' => exact h.1
  | .error .outOfFuel m' => exact h

end Discipline

/-- What the answer to a method refers to. -/
def Method.Ensures (D : Discipline) : {α : Type} → Method α → Nat → α → Prop
  | _, .getOwnProperty _ _ => D.Seen
  | _, .defineOwnProperty _ _ _ => fun _ _ => True
  | _, .hasProperty _ _ => fun _ _ => True
  | _, .get _ _ _ => D.Seen
  | _, .set _ _ _ _ => fun _ _ => True
  | _, .delete _ _ => fun _ _ => True
  | _, .ownKeys _ => fun _ _ => True
  | _, .setPrototypeOf _ _ => fun _ _ => True
  | _, .call _ _ _ => D.Seen
  | _, .construct _ _ _ => D.Seen
  | _, .evaluate _ _ => D.Seen

/-- Reading the length of an array changes nothing. -/
def Engine.Prompt (eng : Engine) : Prop :=
  ∀ (array : Ref) (m : Machine), (m.heap.object array).isArray = true →
    (∃ length, eng.get array .length m = .ok (.ofNat length) m) ∨
      ∃ e, eng.get array .length m = .error e m

/-- The engine's answers keep to the discipline. -/
structure Engine.Meets (D : Discipline) (eng : Engine) : Prop where
  answers : ∀ {α : Type} (μ : Method α) (m : Machine), D.Admits m.size μ → D.Sound m →
    D.Meets (μ.Ensures D) m (eng.answer μ m)
  lengths : D.prompt → eng.Prompt

/-- The first run is out of fuel, or both ended alike. -/
def Run.Lags {α : Type} (res res' : EStateM.Result Halt Machine α) : Prop :=
  (∃ m, res = .error .outOfFuel m) ∨ res' = res

/-- An operation over an engine that refers to places known at heap size `b` when it starts, and
gives results in `Q`. -/
inductive Routine (D : Discipline) :
    {α : Type} → Nat → (Nat → α → Prop) → (Engine → Run α) → Prop where
  /-- A run that needs no engine. -/
  | act {α : Type} {b : Nat} {Q : Nat → α → Prop} (x : Run α)
      (h : ∀ m, b ≤ m.size → D.Sound m → D.Meets Q m (x m)) : Routine D b Q fun _ => x
  | bind {α β : Type} {b : Nat} {Q : Nat → α → Prop} {R : Nat → β → Prop} {x : Engine → Run α}
      {f : α → Engine → Run β} (hx : Routine D b Q x)
      (hf : ∀ b' a, b ≤ b' → Q b' a → Routine D b' R (f a)) :
      Routine D b R fun eng => x eng >>= fun a => f a eng
  | answer {α : Type} {b : Nat} (μ : Method α) (h : D.Admits b μ) :
      Routine D b (μ.Ensures D) fun eng => eng.answer μ
  /-- A loop that the engine bounds; a higher bound does not change what has come to its end. -/
  | limit {α : Type} {b : Nat} {Q : Nat → α → Prop} {f : Nat → Engine → Run α}
      (h : ∀ n, Routine D b Q (f n))
      (hmono : ∀ n n' eng m, n ≤ n' → Run.Lags (f n eng m) (f n' eng m)) :
      Routine D b Q fun eng => f eng.limit eng
  | attempt {α : Type} {b : Nat} {Q : Nat → α → Prop} {x : Engine → Run α} (hD : D.scripted)
      (h : Routine D b Q x) : Routine D b (D.Caught Q) fun eng => Run.attempt (x eng)
  | visit {b : Nat} {Q : Nat → Text → Prop} {x : Engine → Run Text} (r : Ref) (placeholder : Text)
      (h : Routine D b Q x) :
      Routine D b (fun _ _ => True) fun eng => Engine.visit r placeholder (x eng)
  /-- A routine and the run that follows it, which the discipline knows only together: what the
  routine does from a state in which another engine would have stopped it, both do. -/
  | settle {α β : Type} {b : Nat} {Q : Nat → α → Prop} {R : Nat → β → Prop} {x : Engine → Run α}
      {f : α → Run β} (hx : Routine D b Q x)
      (h : ∀ eng eng', eng.Meets D → eng'.Meets D → ∀ m s, b ≤ m.size → D.Sound m →
        D.Follows m s →
          (s = m ∨ Intrinsic.all.length ≤ m.size ∧ x eng' m = .error .outOfFuel s) →
            D.Meets Q s (x eng m) → D.Meets R s ((x eng >>= f) m)) :
      Routine D b R fun eng => x eng >>= f

/-! ## Runs step by step -/

namespace Run

variable {α β : Type}

theorem bind_apply (x : Run α) (f : α → Run β) (m : Machine) :
    (x >>= f) m =
      match x m with
      | .ok a m' => f a m'
      | .error e m' => .error e m' := by
  show EStateM.bind x f m = _
  unfold EStateM.bind
  cases x m <;> rfl

theorem pure_apply (a : α) (m : Machine) : (pure a : Run α) m = .ok a m := rfl

/-- A run that gives a value goes on with it. -/
theorem bind_ok {x : Run α} {f : α → Run β} {a : α} {m m' : Machine} (h : x m = .ok a m') :
    (x >>= f) m = f a m' := by
  rw [bind_apply, h]

theorem bind_error {x : Run α} {f : α → Run β} {e : Halt} {m m' : Machine}
    (h : x m = .error e m') : (x >>= f) m = .error e m' := by
  rw [bind_apply, h]

/-- A run in two parts gives a value only if both do. -/
theorem of_bind_ok {x : Run α} {f : α → Run β} {b : β} {m m' : Machine}
    (h : (x >>= f) m = .ok b m') : ∃ a m₁, x m = .ok a m₁ ∧ f a m₁ = .ok b m' := by
  rw [bind_apply] at h
  cases hx : x m with
  | ok a m₁ =>
    rw [hx] at h
    exact ⟨a, m₁, rfl, h⟩
  | error e m₁ =>
    rw [hx] at h
    cases h

namespace Lags

variable {res : EStateM.Result Halt Machine α}

protected theorem refl : Lags res res := .inr rfl

theorem outOfFuel (m : Machine) (res : EStateM.Result Halt Machine α) :
    Lags (.error .outOfFuel m) res := .inl ⟨m, rfl⟩

protected theorem bind {x y : Run α} {f g : α → Run β} {m : Machine} (hx : Lags (x m) (y m))
    (hf : ∀ a m', x m = .ok a m' → Lags (f a m') (g a m')) :
    Lags ((x >>= f) m) ((y >>= g) m) := by
  rcases hx with ⟨m', hx⟩ | hx
  · exact .inl ⟨m', bind_error hx⟩
  · rw [bind_apply, bind_apply, hx]
    cases hres : x m with
    | ok a m' => exact hf a m' hres
    | error e m' => exact .refl

end Lags

end Run

/-- The visit of a composite is its placeholder, or the body between entering and leaving. -/
theorem Engine.visit_apply (r : Ref) (placeholder : Text) (body : Run Text) (m : Machine) :
    Engine.visit r placeholder body m =
      if m.source.isVisiting r then
        .ok placeholder { m with events := .revisited placeholder :: m.events }
      else
        match body { m with source := m.source.enter r } with
        | .ok t m' => .ok t { m' with source := m'.source.leave r }
        | .error e m' => .error e { m' with source := m'.source.leave r } := by
  unfold Engine.visit
  rw [Run.bind_apply]
  simp only [Run.machine]
  split
  · rfl
  · rw [Run.bind_apply]
    simp only [Run.change, Run.afterwards]
    cases body { m with source := m.source.enter r } <;> rfl

namespace Discipline

variable {D : Discipline} {α : Type}

theorem Meets.bind {β : Type} {Q : Nat → α → Prop} {R : Nat → β → Prop} {x : Run α}
    {f : α → Run β} {m : Machine} (hx : D.Meets Q m (x m))
    (hf : ∀ a m', m.size ≤ m'.size → Q m'.size a → D.Sound m' → D.Meets R m' (f a m')) :
    D.Meets R m ((x >>= f) m) := by
  rw [Run.bind_apply]
  cases hr : x m with
  | ok a m' =>
    rw [hr] at hx
    exact (hf a m' hx.1.grows hx.2 hx.1.sound).after hx.1
  | error e m' =>
    rw [hr] at hx
    cases e with
    | thrown v => exact hx
    | outOfFuel => exact hx

theorem Meets.visit {Q : Nat → Text → Prop} {r : Ref} {placeholder : Text} {body : Run Text}
    {m : Machine} (hm : D.Sound m)
    (h : ∀ m', m'.size = m.size → D.Sound m' → D.Meets Q m' (body m')) :
    D.Meets (fun _ _ => True) m (Engine.visit r placeholder body m) := by
  rw [Engine.visit_apply]
  split
  · exact ⟨⟨D.keeps_change (.beside rfl rfl rfl rfl), hm, Nat.le_refl _⟩, trivial⟩
  · next hr =>
    have hbody := h { m with source := m.source.enter r } rfl hm
    have leaves : ∀ {m'}, D.Follows { m with source := m.source.enter r } m' →
        D.Follows m { m' with source := m'.source.leave r } := fun h =>
      ⟨D.keeps_visit (by simpa using hr) h.keeps, h.sound, h.grows⟩
    cases hres : body { m with source := m.source.enter r } with
    | ok t m' =>
      rw [hres] at hbody
      exact ⟨leaves hbody.1, trivial⟩
    | error e m' =>
      rw [hres] at hbody
      cases e with
      | thrown v => exact ⟨leaves hbody.1, hbody.2⟩
      | outOfFuel => exact leaves hbody

theorem Meets.attempt {Q : Nat → α → Prop} {x : Run α} {m : Machine} (h : D.Meets Q m (x m)) :
    D.Meets (D.Caught Q) m (Run.attempt x m) := by
  unfold Run.attempt
  cases hres : x m with
  | ok a m' =>
    rw [hres] at h
    exact h
  | error e m' =>
    rw [hres] at h
    cases e with
    | thrown v => exact h
    | outOfFuel => exact h

end Discipline

/-- **Routines over an engine that meets a discipline meet it.** -/
theorem Routine.meets {D : Discipline} {α : Type} {b : Nat} {Q : Nat → α → Prop}
    {op : Engine → Run α} (h : Routine D b Q op) {eng : Engine} (heng : eng.Meets D)
    {m : Machine} (hb : b ≤ m.size) (hm : D.Sound m) : D.Meets Q m (op eng m) := by
  induction h generalizing m with
  | act x hx => exact hx m hb hm
  | bind _ _ ihx ihf =>
    exact (ihx hb hm).bind fun a m' hsize ha hm' =>
      ihf _ a (Nat.le_trans hb hsize) ha (Nat.le_refl _) hm'
  | answer μ hμ => exact heng.answers μ m (hμ.mono hb) hm
  | limit _ _ ih => exact ih eng.limit hb hm
  | attempt _ _ ih => exact (ih hb hm).attempt
  | visit r placeholder _ ih =>
    exact Discipline.Meets.visit hm fun m' hsize hm' => ih (hsize ▸ hb) hm'
  | settle _ h ih => exact h eng eng heng heng m m hb hm (.refl hm) (.inl rfl) (ih hb hm)

end ObjectModel
