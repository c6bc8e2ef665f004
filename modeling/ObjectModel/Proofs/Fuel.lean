import ObjectModel.Proofs.Kinds

/-!
# More fuel

Fuel bounds how deeply methods are nested and how long the loops run whose end user code decides.
A run that comes to an end does so in the same way with more fuel (`engine_lags`): a routine sees an
engine only through its answers, so it loses none of its own where the engine loses none.

This holds of every machine and all operands, so it needs a discipline that asks nothing of them.
The one used here, `Discipline.proxies`, also tells what any run leaves of proxies.

Runs that are given for every amount of fuel are compared by `Run.Alike`, and `Run.Settles` says that
one of them comes to its end.
-/

namespace ObjectModel

/-! ## Proxies stay -/

/-- No object is lost, and the proxies among them are the same, with their targets and traps. -/
structure Machine.KeepsProxies (m m' : Machine) : Prop where
  grows : m.size ≤ m'.size
  proxies : ∀ r : Ref, r.index < m.size → ∀ target traps,
    m'.heap.kind r = .proxy target traps ↔ m.heap.kind r = .proxy target traps

namespace Machine.KeepsProxies

variable {m m' m₁ m₂ m₃ : Machine} {r : Ref}

protected theorem refl (m : Machine) : m.KeepsProxies m := ⟨Nat.le_refl _, fun _ _ _ _ => .rfl⟩

protected theorem trans (h : m₁.KeepsProxies m₂) (h' : m₂.KeepsProxies m₃) :
    m₁.KeepsProxies m₃ where
  grows := Nat.le_trans h.grows h'.grows
  proxies r hr target traps :=
    (h'.proxies r (Nat.lt_of_lt_of_le hr h.grows) target traps).trans (h.proxies r hr target traps)

theorem of_onward (h : m.Onward m') : m.KeepsProxies m' where
  grows := h.grows
  proxies r hr target traps := by
    have hkind := h.kinds r hr
    generalize m.heap.kind r = before at hkind
    generalize m'.heap.kind r = after at hkind
    cases hkind with
    | same => exact .rfl
    | _ => simp only [reduceCtorEq]

theorem isProxy_eq_false (h : m.KeepsProxies m') (hr : r.index < m.size)
    (hproxy : (m.heap.object r).isProxy = false) : (m'.heap.object r).isProxy = false := by
  cases hkind : (m'.heap.object r).kind with
  | proxy target traps =>
    have hbefore : (m.heap.object r).kind = .proxy target traps := (h.proxies r hr _ _).1 hkind
    simp only [Object.isProxy, hbefore, reduceCtorEq] at hproxy
  | _ => simp only [Object.isProxy, hkind]

theorem moveCursor (iterator : Ref) (c : Cursor) (m : Machine) :
    m.KeepsProxies (Run.final (Engine.moveCursor iterator c m)) := by
  refine ⟨Nat.le_of_eq (Engine.size_moveCursor iterator c m).symm, fun r _ target traps => ?_⟩
  by_cases hr : r = iterator
  · subst hr
    cases hkind : m.heap.kind r with
    | iterator source _ => simp only [Engine.kind_moveCursor hkind, reduceCtorEq]
    | _ => simp only [Engine.moveCursor_apply, hkind, Run.final]
  · show ((Run.final (Engine.moveCursor iterator c m)).heap.object r).kind = _ ↔ _
    rw [Engine.object_moveCursor hr]
    rfl

end Machine.KeepsProxies

/-- Proxies stay; nothing is asked of the operands. -/
def Discipline.proxies : Discipline where
  knows _ _ := True
  allows _ := True
  scripted := True
  prompt := False
  keeps := Machine.KeepsProxies
  knows_mono _ h := h
  knows_fresh _ _ := trivial
  knows_intrinsic _ _ := trivial
  keeps_refl := .refl
  keeps_trans := .trans
  keeps_change h := .of_onward (.change h)
  keeps_visit _ h := ⟨h.grows, h.proxies⟩
  keeps_settle _ _ _ _ _ _ h := h.trans (.moveCursor _ _ _)

theorem Discipline.sound_proxies (m : Machine) : proxies.Sound m :=
  ⟨Nat.zero_le _, fun _ _ => trivial⟩

theorem Discipline.admits_proxies {α : Type} (b : Nat) (μ : Method α) : proxies.Admits b μ :=
  fun _ _ => trivial

theorem engine_proxies (n : Nat) : (engine n).Meets .proxies :=
  engine_meets trivial (fun _ => trivial) n

/-- **No routine makes, unmakes or changes a proxy that there was.** -/
theorem Routine.keepsProxies {α : Type} {Q : Nat → α → Prop} {op : Engine → Run α} {m : Machine}
    (h : Routine .proxies m.size Q op) (n : Nat) :
    m.KeepsProxies (Run.final (op (engine n) m)) :=
  (h.meets (engine_proxies n) (Nat.le_refl _) (Discipline.sound_proxies m)).follows.keeps

/-! ## More fuel -/

namespace Run.Lags

variable {α : Type} {res res₁ res₂ : EStateM.Result Halt Machine α}

protected theorem trans (h : Lags res res₁) (h' : Lags res₁ res₂) : Lags res res₂ := by
  rcases h with hout | rfl
  · exact .inl hout
  · exact h'

protected theorem attempt {x y : Run α} {m : Machine} (h : Lags (x m) (y m)) :
    Lags (Run.attempt x m) (Run.attempt y m) := by
  unfold Run.attempt
  rcases h with ⟨m', hx⟩ | hx
  · rw [hx]
    exact .outOfFuel m' _
  · rw [hx]
    exact .refl

protected theorem visit {r : Ref} {placeholder : Text} {x y : Run Text} {m : Machine}
    (h : Lags (x { m with source := m.source.enter r }) (y { m with source := m.source.enter r })) :
    Lags (Engine.visit r placeholder x m) (Engine.visit r placeholder y m) := by
  rw [Engine.visit_apply, Engine.visit_apply]
  split
  · exact .refl
  · rcases h with ⟨m', hx⟩ | hx
    · rw [hx]
      exact .outOfFuel _ _
    · rw [hx]
      exact .refl

end Run.Lags

/-- The second engine gives every answer that the first gives. -/
def Engine.Lags (eng eng' : Engine) : Prop :=
  eng.limit ≤ eng'.limit ∧ ∀ {α : Type} (μ : Method α) (m : Machine),
    Run.Lags (eng.answer μ m) (eng'.answer μ m)

/-- **A routine loses no result over an engine that loses no answer.** -/
theorem Routine.lags {D : Discipline} {α : Type} {b : Nat} {Q : Nat → α → Prop}
    {op : Engine → Run α} (h : Routine D b Q op) (hD : ∀ m, D.Sound m) {eng eng' : Engine}
    (heng : eng.Meets D) (hlags : eng.Lags eng') {m : Machine} (hb : b ≤ m.size) :
    Run.Lags (op eng m) (op eng' m) := by
  induction h generalizing m with
  | act x _ => exact .refl
  | bind hx _ ihx ihf =>
    refine .bind (ihx hb) fun a m' hres => ?_
    have hmeets := hx.meets heng hb (hD m)
    rw [hres] at hmeets
    exact ihf _ a (Nat.le_trans hb hmeets.1.grows) hmeets.2 (Nat.le_refl _)
  | answer μ _ => exact hlags.2 μ m
  | limit _ hmono ih => exact (ih eng.limit hb).trans (hmono _ _ eng' m hlags.1)
  | attempt _ _ ih => exact (ih hb).attempt
  | visit r placeholder _ ih => exact .visit (ih hb)
  | settle _ _ ih => exact .bind (ih hb) fun _ _ _ => .refl

/-- **More fuel does not change what has come to its end.** -/
theorem engine_lags {n n' : Nat} (hn : n ≤ n') : (engine n).Lags (engine n') := by
  induction n generalizing n' with
  | zero => exact ⟨Nat.zero_le _, fun μ m => .outOfFuel m _⟩
  | succ n ih =>
    obtain ⟨n', rfl⟩ : ∃ k, n' = k + 1 := ⟨n' - 1, by omega⟩
    refine ⟨hn, fun μ m => ?_⟩
    have hstep := Routine.step (D := .proxies) trivial μ
      (Discipline.admits_proxies m.size μ) (by cases μ <;> trivial)
    exact hstep.lags Discipline.sound_proxies (engine_proxies n)
      (ih (Nat.le_of_succ_le_succ hn)) (Nat.le_refl _)

theorem Routine.lags_engine {α : Type} {Q : Nat → α → Prop} {op : Engine → Run α} {m : Machine}
    (h : Routine .proxies m.size Q op) {n n' : Nat} (hn : n ≤ n') :
    Run.Lags (op (engine n) m) (op (engine n') m) :=
  h.lags Discipline.sound_proxies (engine_proxies n) (engine_lags hn) (Nat.le_refl _)

/-! ## Runs that come to the same ends -/

/-- Of two runs that are given for every amount of fuel, the second gives what the first gives as
soon as it has `c` more, and the first gives what the second gives. -/
structure Run.Alike {α : Type} (c : Nat) (x y : Nat → Run α) (m : Machine) : Prop where
  up : ∀ n n', n + c ≤ n' → Run.Lags (x n m) (y n' m)
  down : ∀ n, Run.Lags (y n m) (x n m)

namespace Run.Alike

variable {α β : Type} {c c' : Nat} {x y z : Nat → Run α} {m : Machine}

protected theorem const (x : Run α) : Alike c (fun _ => x) (fun _ => x) m :=
  ⟨fun _ _ _ => .refl, fun _ => .refl⟩

/-- An answer is like itself with more fuel. -/
protected theorem answer (μ : Method α) :
    Alike c (fun n => (engine n).answer μ) (fun n => (engine n).answer μ) m :=
  ⟨fun _ _ hn => (engine_lags (by omega)).2 μ m, fun _ => .refl⟩

/-- What is said of the steps of an answer holds of the answer. -/
theorem step {μ μ' : Method α}
    (h : Alike c (fun n => (engine n).step μ) (fun n => (engine n).step μ') m) :
    Alike c (fun n => (engine n).answer μ) (fun n => (engine n).answer μ') m where
  up n n' hn := by
    cases n with
    | zero => exact .outOfFuel m _
    | succ n =>
      obtain ⟨n', rfl⟩ : ∃ k, n' = k + 1 := ⟨n' - 1, by omega⟩
      exact h.up n n' (by omega)
  down n := by
    cases n with
    | zero => exact .outOfFuel m _
    | succ n => exact h.down n

theorem congr {x' y' : Nat → Run α} (hx : ∀ n, x n m = x' n m) (hy : ∀ n, y n m = y' n m)
    (h : Alike c x' y' m) : Alike c x y m where
  up n n' hn := by
    rw [hx, hy]
    exact h.up n n' hn
  down n := by
    rw [hx, hy]
    exact h.down n

protected theorem trans (h : Alike c x y m) (h' : Alike c' y z m) : Alike (c + c') x z m where
  up n n' hn := (h.up n (n + c) (Nat.le_refl _)).trans (h'.up (n + c) n' (by omega))
  down n := (h'.down n).trans (h.down n)

protected theorem bind {f g : α → Nat → Run β} (h : Alike c x y m)
    (hf : ∀ n a m', x n m = .ok a m' → Alike c (f a) (g a) m') :
    Alike c (fun n => x n >>= fun a => f a n) (fun n => y n >>= fun a => g a n) m where
  up n n' hn := .bind (h.up n n' hn) fun a m' hres => (hf n a m' hres).up n n' hn
  down n := by
    refine .bind (h.down n) fun a m' hres => (hf n a m' ?_).down n
    rcases h.down n with ⟨m₁, hout⟩ | hsame
    · cases hres.symm.trans hout
    · exact hsame.trans hres

protected theorem map (f : α → β) (h : Alike c x y m) :
    Alike c (fun n => f <$> x n) (fun n => f <$> y n) m := by
  simp only [map_eq_pure_bind]
  exact h.bind fun _ a _ _ => .const (pure (f a))

protected theorem attempt (h : Alike c x y m) :
    Alike c (fun n => Run.attempt (x n)) (fun n => Run.attempt (y n)) m :=
  ⟨fun n n' hn => (h.up n n' hn).attempt, fun n => (h.down n).attempt⟩

end Run.Alike

/-- With enough fuel a run comes to its one end, and leaves a machine in `R`. -/
def Run.Settles {α : Type} (R : Machine → Prop) (x : Nat → Run α) (m : Machine) : Prop :=
  ∃ N res, (∀ n, N ≤ n → x n m = res) ∧ (∀ m', res ≠ .error .outOfFuel m') ∧ R (Run.final res)

namespace Run.Settles

variable {α β : Type} {R R' : Machine → Prop} {x y : Nat → Run α} {m m' : Machine} {a : α}

theorem ok (h : ∀ n, x (n + 1) m = .ok a m') (hR : R m') : Settles R x m := by
  refine ⟨1, .ok a m', fun n hn => ?_, fun _ hout => (by cases hout), hR⟩
  obtain ⟨n, rfl⟩ : ∃ k, n = k + 1 := ⟨n - 1, by omega⟩
  exact h n

theorem congr (h : ∀ n, x n m = y n m) (hy : Settles R y m) : Settles R x m := by
  obtain ⟨N, res, hres, hend, hR⟩ := hy
  exact ⟨N, res, fun n hn => (h n).trans (hres n hn), hend, hR⟩

theorem step {μ : Method α} (h : Settles R (fun n => (engine n).step μ) m) :
    Settles R (fun n => (engine n).answer μ) m := by
  obtain ⟨N, res, hres, hend, hR⟩ := h
  refine ⟨N + 1, res, fun n hn => ?_, hend, hR⟩
  obtain ⟨n, rfl⟩ : ∃ k, n = k + 1 := ⟨n - 1, by omega⟩
  exact hres n (Nat.le_of_succ_le_succ hn)

theorem bind_ok {f : α → Nat → Run β} (hx : ∀ n, x (n + 1) m = .ok a m')
    (hf : Settles R (f a) m') : Settles R (fun n => x n >>= fun a => f a n) m := by
  obtain ⟨N, res, hres, hend, hR⟩ := hf
  refine ⟨N + 1, res, fun n hn => ?_, hend, hR⟩
  obtain ⟨n, rfl⟩ : ∃ k, n = k + 1 := ⟨n - 1, by omega⟩
  exact (Run.bind_ok (hx n)).trans (hres (n + 1) (by omega))

theorem mono (hR : ∀ m', R m' → R' m') (h : Settles R x m) : Settles R' x m := by
  obtain ⟨N, res, hres, hend, hfinal⟩ := h
  exact ⟨N, res, hres, hend, hR _ hfinal⟩

protected theorem map (f : α → β) (h : Settles R x m) : Settles R (fun n => f <$> x n) m := by
  obtain ⟨N, res, hres, hend, hR⟩ := h
  simp only [map_eq_pure_bind]
  cases res with
  | ok a m' =>
    exact ⟨N, .ok (f a) m', fun n hn => Run.bind_ok (hres n hn), fun _ hout => (by cases hout), hR⟩
  | error e m' =>
    refine ⟨N, .error e m', fun n hn => bind_error (hres n hn), fun _ hout => ?_, hR⟩
    cases hout
    exact hend _ rfl

/-- An attempt always ends with an outcome. -/
protected theorem attempt (h : Settles R x m) :
    ∃ N outcome m', (∀ n, N ≤ n → Run.attempt (x n) m = .ok outcome m') ∧ R m' := by
  obtain ⟨N, res, hres, hend, hR⟩ := h
  cases res with
  | ok a m' => exact ⟨N, .ok a, m', fun n hn => by simp [Run.attempt, hres n hn], hR⟩
  | error e m' =>
    cases e with
    | thrown v => exact ⟨N, .error v, m', fun n hn => by simp [Run.attempt, hres n hn], hR⟩
    | outOfFuel => exact absurd rfl (hend m')

end Run.Settles

end ObjectModel
