import Mathlib.Logic.Relation
import ObjectModel.Proofs.Routine.Step

/-!
# Reachable machines

An operation on a machine is a method that an engine answers, with any amount of fuel and however
the answer ends; methods include the evaluation of expressions, so every operation of a script is
one.  What is in between can be observed by stopping at a method.  A machine is reachable if a run
of operations on a new realm leads to it.

Whatever a scripted discipline keeps is kept by operations, and a new realm is sound for every
discipline.
-/

namespace ObjectModel

open Discipline

variable {D : Discipline} {b : Nat}

/-! ## Making a realm -/

namespace Routine

/-- The last machine of a routine that asks the engine nothing follows the first. -/
theorem follows {α : Type} {Q : Nat → α → Prop} {x : Run α} (h : Routine D b Q fun _ => x)
    {m : Machine} (hb : b ≤ m.size) (hm : D.Sound m) : D.Follows m (Run.final (x m)) :=
  (h.runs hb hm).follows

theorem start : Routine D.loose b Any fun _ => Engine.start := by
  refine .bind (.addIntrinsicMembers (D := D) seen_members _) fun b₁ _ _ _ => ?_
  refine .bind .machine fun b₂ m _ _ => ?_
  have hrest {b : Nat} : Routine D.loose b Any fun _ => (do
      unless m.options.withoutExtensions do let _ ← Engine.install
      Run.emit .started) := by
    cases m.options.withoutExtensions with
    | true => exact .emit _
    | false => exact .bind .installLoosely fun _ _ _ _ => .emit _
  cases hprint : m.options.printInternals with
  | true =>
    simp only [hprint, if_true]
    exact .bind (.emit _) fun _ _ _ _ => hrest
  | false =>
    simp only [hprint]
    exact hrest

end Routine

theorem Heap.object_intrinsics (p : Ref) :
    Heap.intrinsics.object p = default ∨
      ∃ i : Intrinsic, Heap.intrinsics.object p = .new i.initialPrototype i.initialKind := by
  unfold object intrinsics
  rw [Array.getD_eq_getD_getElem?, List.getElem?_toArray, List.getElem?_map]
  cases Intrinsic.all[p.index]? with
  | none => exact .inl rfl
  | some i => exact .inr ⟨i, rfl⟩

theorem size_bare (options : Options) : (Machine.bare options).size = Intrinsic.all.length := rfl

theorem sound_bare (hbase : D.base ≤ Intrinsic.all.length) (options : Options) :
    D.Sound (.bare options) := by
  have hobject (p : Ref) : D.Seen (Machine.bare options).size (Heap.intrinsics.object p) := by
    rcases Heap.object_intrinsics p with hnone | ⟨i, hi⟩
    · rw [hnone]
      exact seen_new.2 ⟨seen_none, nofun⟩
    · rw [hi]
      cases i <;>
        exact seen_new.2 ⟨by first | exact seen_none | exact seen_some.2 seen_intrinsic, nofun⟩
  refine ⟨hbase, ?_⟩
  rintro r (⟨p, hp⟩ | ⟨x, hx, -⟩ | ⟨e, he, -⟩ | hr)
  · exact hobject p r hp
  · cases hx
  · cases he
  · cases hr

/-- A new realm refers to known places only, and has all intrinsic objects. -/
theorem sound_initialMachine (hbase : D.base ≤ Intrinsic.all.length) (options : Options) :
    D.Sound (Session.initialMachine options) ∧
      Intrinsic.all.length ≤ (Session.initialMachine options).size := by
  have hstart : Routine D.loose 0 Routine.Any fun _ => Engine.start := .start
  have hfollows := hstart.follows (Nat.zero_le _) (sound_bare hbase options)
  have hlast : Session.initialMachine options = Run.final (Engine.start (.bare options)) := by
    unfold Session.initialMachine
    cases Engine.start (.bare options) <;> rfl
  rw [hlast, ← size_bare options]
  exact ⟨hfollows.sound, hfollows.grows⟩

/-! ## Operations -/

/-- One operation on existing objects, or such an operation up to a method at which it is stopped,
with the state it has reached so far. -/
inductive Machine.Operation (m : Machine) : Machine → Prop where
  | whole {α : Type} (n : Nat) (μ : Method α) (hlive : ∀ r, refers μ r → r.index < m.size) :
      Operation m (Run.final ((engine n).answer μ m))
  | stopped {α : Type} (n : Nat) (μ : Method α) (hlive : ∀ r, refers μ r → r.index < m.size)
      (proceed : {α : Type} → Method α → Machine → Bool) :
      Operation m (Run.final ((watchedEngine proceed (fun _ => Run.outOfFuel) n).answer μ m))

/-- A discipline that knows all existing objects and allows all descriptors is kept to by
operations. -/
theorem Machine.Operation.follows (hD : D.scripted) (hall : ∀ d, D.allows d)
    (hknows : ∀ b (r : Ref), r.index < b → D.knows b r) {m m' : Machine}
    (h : m.Operation m') (hm : D.Sound m) : D.Follows m m' := by
  cases h with
  | whole n μ hlive =>
    have hmeets : (engine n).Meets D := engine_meets hD hall n
    exact (hmeets.answers μ m (Seen.admits fun r hr => hknows _ r (hlive r hr)) hm).follows
  | stopped n μ hlive proceed =>
    have hallowed {α : Type} (μ : Method α) : μ.Allowed D := by
      cases μ <;> first | exact hall _ | trivial
    have hmeets : (watchedEngine proceed (fun _ => Run.outOfFuel) n).Meets D :=
      watchedEngine_meets hD (fun μ _ _ => hallowed μ) n
    exact (hmeets.answers μ m (Seen.admits fun r hr => hknows _ r (hlive r hr)) hm).follows

theorem follows_of_operations (hD : D.scripted) (hall : ∀ d, D.allows d)
    (hknows : ∀ b (r : Ref), r.index < b → D.knows b r) {m m' : Machine}
    (h : Relation.ReflTransGen Machine.Operation m m') (hm : D.Sound m) : D.Follows m m' := by
  induction h with
  | refl => exact .refl hm
  | tail _ hlast ih => exact ih.trans (hlast.follows hD hall hknows ih.sound)

/-! ## Places -/

/-- Only existing objects are referred to; the intrinsic ones always exist. -/
def Discipline.places : Discipline where
  knows b r := r.index < b ∨ r.index < Intrinsic.all.length
  allows _ := True
  scripted := True
  prompt := False
  keeps _ _ := True
  knows_mono hb hr := hr.imp_left fun h => Nat.lt_of_lt_of_le h hb
  knows_fresh b _ := .inl (Nat.lt_succ_self b)
  knows_intrinsic _ i := .inr i.index_ref_lt
  keeps_refl _ := trivial
  keeps_trans _ _ := trivial
  keeps_change _ := trivial
  keeps_visit _ _ := trivial
  keeps_settle _ _ _ _ _ _ _ := trivial

/-- The machine is that of a realm, with all that has been done to it. -/
def Machine.Reachable (m : Machine) : Prop :=
  ∃ options, Relation.ReflTransGen Machine.Operation (Session.initialMachine options) m

/-- All that the objects of the machine refer to exists, and so do the intrinsic objects. -/
structure Machine.Live (m : Machine) : Prop where
  intrinsics : Intrinsic.all.length ≤ m.size
  referents : ∀ p r, refers (m.heap.object p) r → r.index < m.size

theorem Machine.Live.intrinsic {m : Machine} (h : m.Live) (i : Intrinsic) :
    i.ref.index < m.size := Nat.lt_of_lt_of_le i.index_ref_lt h.intrinsics

theorem Machine.Reachable.live {m : Machine} (h : m.Reachable) : m.Live := by
  obtain ⟨options, hm⟩ := h
  obtain ⟨hsound, hsize⟩ := sound_initialMachine (D := .places) (Nat.zero_le _) options
  have hfollows := follows_of_operations (D := .places) trivial (fun _ => trivial)
    (fun _ _ => .inl) hm hsound
  have hsize := Nat.le_trans hsize hfollows.grows
  refine ⟨hsize, fun p r hr => ?_⟩
  rcases hfollows.sound.2 r (.inl ⟨p, hr⟩) with hlive | hintrinsic
  · exact hlive
  · exact Nat.lt_of_lt_of_le hintrinsic hsize

end ObjectModel
