import ObjectModel.Proofs.Kinds

/-!
# The extensions stay

Installation records what the extensions add to a realm, and the record is never changed again
(`extensions_of_before`).  The key of the private next method is a symbol made for it, so it is not
the key of the iterator method (`Machine.Attained.nextSymbol_ne`).
-/

namespace ObjectModel

variable {α : Type}

/-- A run that makes and populates objects leaves the extensions and the symbols as they are. -/
theorem Run.Furnishes.extensions {x : Run α} (h : x.Furnishes) (m : Machine) :
    ∃ a m', x m = .ok a m' ∧ m'.extensions = m.extensions ∧ m'.heap.symbols = m.heap.symbols :=
  h.keeps (R := fun m m' => m'.extensions = m.extensions ∧ m'.heap.symbols = m.heap.symbols)
    (fun _ => ⟨rfl, rfl⟩) (fun _ _ _ h h' => ⟨h'.1.trans h.1, h'.2.trans h.2⟩)
    (fun _ _ => ⟨rfl, rfl⟩) (fun _ _ _ _ => ⟨rfl, rfl⟩) m

/-! ## Installation -/

theorem Engine.install_some {m : Machine} {x : Extensions} (hx : m.extensions = some x) :
    install m = .ok x m := by
  have hmachine : Run.machine m = .ok m m := rfl
  rw [install, Run.bind_ok hmachine]
  simp only [hx]
  rfl

/-- Installation makes one symbol and records what it gives. -/
theorem Engine.install_none {m : Machine} (hnone : m.extensions = none) :
    ∃ x m', install m = .ok x m' ∧ m'.extensions = some x ∧
      x.nextSymbol = ⟨m.heap.symbols.size⟩ ∧
      m'.heap.symbols.size = m.heap.symbols.size + 1 := by
  let m₁ : Machine := { m with heap := (m.heap.allocateSymbol (some "next")).2 }
  have hsymbol : newSymbol (some "next") m = .ok ⟨m.heap.symbols.size⟩ m₁ := rfl
  obtain ⟨prototype, m₂, hprototype, -, hsymbols₂⟩ : ∃ r m₂,
      newIterationObject Intrinsic.objectPrototype.ref ⟨m.heap.symbols.size⟩ (.list #[]) m₁ =
        .ok r m₂ ∧ m₂.extensions = m₁.extensions ∧ m₂.heap.symbols = m₁.heap.symbols :=
    Run.Furnishes.newIterationObject.extensions m₁
  obtain ⟨constructor, m₃, hconstructor, -, hsymbols₃⟩ : ∃ r m₃,
      newNative "Iterator" 2 .iteratorConstructor m₂ = .ok r m₃ ∧ m₃.extensions = m₂.extensions ∧
        m₃.heap.symbols = m₂.heap.symbols := Run.Furnishes.newNative.extensions m₂
  let x : Extensions := ⟨⟨m.heap.symbols.size⟩, prototype, constructor⟩
  have hchange : Run.change (fun m => { m with extensions := some x }) m₃ =
      .ok () { m₃ with extensions := some x } := rfl
  obtain ⟨_, m₅, hadd, hextensions, hsymbols₅⟩ :=
    (Run.Furnishes.addExtensions x).extensions { m₃ with extensions := some x }
  refine ⟨x, { m₅ with events := .extensionsInstalled :: m₅.events }, ?_, hextensions, rfl, ?_⟩
  · have hmachine : Run.machine m = .ok m m := rfl
    rw [install, Run.bind_ok hmachine]
    simp only [hnone]
    rw [Run.bind_ok hsymbol, Run.bind_ok hprototype, Run.bind_ok hconstructor,
      Run.bind_ok hchange, Run.bind_ok hadd]
    rfl
  · show m₅.heap.symbols.size = _
    rw [hsymbols₅, hsymbols₃, hsymbols₂]
    exact Array.size_push ..

/-! ## What a history keeps -/

/-- The key of the private next method is a symbol of its own. -/
structure Machine.Keyed (m : Machine) : Prop where
  symbols : 0 < m.heap.symbols.size
  next : ∀ x, m.extensions = some x → x.nextSymbol ≠ Symbol.iterator

theorem Machine.Keyed.congr {m m' : Machine} (h : m.Keyed)
    (hextensions : m'.extensions = m.extensions)
    (hsymbols : m.heap.symbols.size ≤ m'.heap.symbols.size) : m'.Keyed :=
  ⟨Nat.lt_of_lt_of_le h.symbols hsymbols, fun x hx => h.next x (hextensions ▸ hx)⟩

/-- The extensions that there are stay, and the key of the next method stays a symbol of its own. -/
structure Machine.Extended (m m' : Machine) : Prop where
  stays : ∀ x, m.extensions = some x → m'.extensions = some x
  keyed : m.Keyed → m'.Keyed

theorem Machine.Extended.of_eq {m m' : Machine} (hextensions : m'.extensions = m.extensions)
    (hsymbols : m.heap.symbols.size ≤ m'.heap.symbols.size) : m.Extended m' :=
  ⟨fun _ hx => hextensions.trans hx, fun h => h.congr hextensions hsymbols⟩

theorem Machine.Extended.change {m m' : Machine} {knows : Nat → Ref → Prop}
    {allows : Descriptor → Prop} (h : m.Change knows allows m') : m.Extended m' := by
  cases h with
  | beside hheap _ hextensions _ =>
    exact .of_eq hextensions (Nat.le_of_eq (congrArg (fun h => h.symbols.size) hheap.symm))
  | allocate o _ _ => exact .of_eq rfl (Nat.le_refl _)
  | iteration proto next source _ _ => exact .of_eq rfl (Nat.le_refl _)
  | symbol description =>
    refine .of_eq rfl ?_
    show m.heap.symbols.size ≤ (m.heap.symbols.push description).size
    rw [Array.size_push]
    exact Nat.le_succ _
  | revise r hrevision => exact .of_eq rfl (Nat.le_refl _)
  | relink r p _ _ _ => exact .of_eq rfl (Nat.le_refl _)
  | install hnone =>
    obtain ⟨x, m', hrun, hextensions, hnext, hsize⟩ := Engine.install_none hnone
    rw [hrun]
    refine ⟨fun y hy => ?_, fun h => ⟨?_, fun y hy => ?_⟩⟩
    · rw [hnone] at hy
      cases hy
    · show 0 < m'.heap.symbols.size
      omega
    · have hy : m'.extensions = some y := hy
      rw [hextensions] at hy
      cases hy
      rw [hnext]
      intro heq
      exact Nat.ne_of_gt h.symbols (congrArg Symbol.index heq)

/-- The extensions stay. -/
def Discipline.extensions : Discipline where
  knows := places.knows
  allows _ := True
  scripted := True
  prompt := False
  keeps := Machine.Extended
  knows_mono := places.knows_mono
  knows_fresh := places.knows_fresh
  knows_intrinsic := places.knows_intrinsic
  keeps_refl _ := ⟨fun _ => id, id⟩
  keeps_trans h h' := ⟨fun x hx => h'.stays x (h.stays x hx), h'.keyed ∘ h.keyed⟩
  keeps_change := .change
  keeps_visit _ h := ⟨h.stays, fun hkeyed => (h.keyed (hkeyed.congr rfl (Nat.le_refl _))).congr rfl
    (Nat.le_refl _)⟩
  keeps_settle _ _ _ _ _ _ h :=
    ⟨h.stays, fun hkeyed => (h.keyed hkeyed).congr rfl (Nat.le_refl _)⟩

theorem Discipline.extensions_unsourced : extensions.Unsourced fun _ => True where
  keeps _ _ h := ⟨h.stays, fun hkeyed => (h.keyed (hkeyed.congr rfl (Nat.le_refl _))).congr rfl
    (Nat.le_refl _)⟩
  property _ _ := trivial

/-- **Through the history of a realm the extensions stay.** -/
theorem extensions_of_before {m m' : Machine} (hm : m.Attained)
    (h : Relation.ReflTransGen Machine.Before m m') {x : Extensions} (hx : m.extensions = some x) :
    m'.extensions = some x :=
  (follows_of_before (D := .extensions) trivial (fun _ => trivial) Discipline.extensions_unsourced
    (fun _ _ => .inl) (Nat.zero_le _) hm h).keeps.stays x hx

theorem keyed_initialMachine (options : Options) : (Session.initialMachine options).Keyed := by
  have hinitial : 0 < (Session.initialMachine options).heap.symbols.size ∧
      (Session.initialMachine options).extensions.all
        (fun x => x.nextSymbol ≠ Symbol.iterator) = true := by
    obtain ⟨_ | _, _ | _⟩ := options <;> decide +kernel
  obtain ⟨hsymbols, hnext⟩ := hinitial
  refine ⟨hsymbols, fun x hx => ?_⟩
  rw [hx] at hnext
  exact of_decide_eq_true hnext

/-- **The key of the next method is not that of the iterator method.** -/
theorem Machine.Attained.nextSymbol_ne {m : Machine} (hm : m.Attained) {x : Extensions}
    (hx : m.extensions = some x) : x.nextSymbol ≠ Symbol.iterator := by
  have hkeyed : m.Keyed := by
    have hunsourced := Discipline.extensions_unsourced
    clear hx
    induction hm with
    | initial options => exact keyed_initialMachine options
    | moment hm h ih =>
      obtain ⟨hsound, hsize⟩ := hm.sound (D := .extensions) trivial (fun _ => trivial) hunsourced
        (fun _ _ => .inl) (Nat.zero_le _)
      obtain ⟨hbefore, hafter⟩ := h.follows (D := .extensions) trivial (fun _ => trivial)
        hunsourced (fun _ _ => .inl) hsize hsound
      exact hafter.keeps.keyed (hbefore.keeps.keyed ih)
  exact hkeyed.next x hx

end ObjectModel
