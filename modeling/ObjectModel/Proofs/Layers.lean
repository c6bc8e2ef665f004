import ObjectModel.Proofs.Regularity

/-!
# Targets are older than their proxies

In every realm, also in one that takes its extensions late, a proxy is made for an object that
exists, and neither its target nor a prototype ever leads outside of the heap
(`Machine.Attained.layered`).  So the way from a proxy to the object under it ends
(`Machine.Layered.root`).
-/

namespace ObjectModel

open Relation

/-! ## The invariant -/

/-- The target of a proxy is older than the proxy. -/
structure Machine.Layered (m : Machine) : Prop where
  intrinsics : Intrinsic.all.length ≤ m.size
  targets : ∀ p target traps, m.heap.kind p = .proxy target traps → target.index < p.index

namespace Machine.Layered

variable {m m' : Machine}

theorem live_of_knows (h : m.Layered) {r : Ref} (hr : Discipline.places.knows m.size r) :
    r.index < m.size :=
  hr.elim id fun hr => Nat.lt_of_lt_of_le hr h.intrinsics

/-- New proxies have older targets, and the other objects keep their kinds if they are or become
proxies. -/
theorem extend (h : m.Layered) (hsize : m.size ≤ m'.size)
    (hold : ∀ r : Ref, r.index < m.size → m'.heap.kind r = m.heap.kind r ∨
      (m'.heap.object r).isProxy = false)
    (hnew : ∀ r target traps, m.size ≤ r.index → m'.heap.kind r = .proxy target traps →
      target.index < r.index) : m'.Layered := by
  refine ⟨Nat.le_trans h.intrinsics hsize, fun p target traps hkind => ?_⟩
  by_cases hp : p.index < m.size
  · rcases hold p hp with hsame | hproxy
    · exact h.targets p target traps (hsame.symm.trans hkind)
    · exact absurd hkind (Heap.kind_ne_proxy hproxy _ _)
  · exact hnew p target traps (Nat.le_of_not_lt hp) hkind

theorem congr (h : m.Layered) (hobjects : m'.heap.objects = m.heap.objects) : m'.Layered := by
  have hkind (r : Ref) : m'.heap.kind r = m.heap.kind r := by
    unfold Heap.kind Heap.object
    rw [hobjects]
  refine h.extend (Nat.le_of_eq (congrArg Array.size hobjects).symm) (fun r _ => .inl (hkind r)) ?_
  intro r target traps _ hr
  exact h.targets r target traps ((hkind r).symm.trans hr)

/-- An object is changed; if it is or becomes a proxy, its kind is not. -/
theorem modify (h : m.Layered) {r : Ref} {f : Object → Object}
    (hkind : (f (m.heap.object r)).kind = (m.heap.object r).kind ∨
      (f (m.heap.object r)).isProxy = false) :
    (m.withHeap (m.heap.modify r f)).Layered := by
  have hobject (p : Ref) : (m.heap.modify r f).kind p = m.heap.kind p ∨
      ((m.heap.modify r f).object p).isProxy = false := by
    unfold Heap.kind
    rw [Heap.object_modify]
    split
    · next hp =>
      rw [hp.1]
      exact hkind
    · exact .inl rfl
  refine ⟨?_, fun p target traps hp => ?_⟩
  · rw [size_withHeap, Heap.size_modify]
    exact h.intrinsics
  · rcases hobject p with hsame | hproxy
    · exact h.targets p target traps (hsame.symm.trans hp)
    · exact absurd hp (Heap.kind_ne_proxy hproxy _ _)

/-- **Every change of a machine keeps its layers.** -/
theorem change (h : m.Layered) {allows : Descriptor → Prop}
    (hchange : m.Change Discipline.places.knows allows m') : m'.Layered := by
  cases hchange with
  | beside hheap _ _ _ => exact h.congr (congrArg Heap.objects hheap)
  | allocate o ho _ hhidden =>
    refine h.extend (Grown.allocate m o).size_le (fun r hr => .inl ?_)
      fun r target traps hr hkind => ?_
    · exact congrArg Object.kind ((Grown.allocate m o).object hr)
    · have hkind : ((m.heap.allocate o).2.object r).kind = .proxy target traps := hkind
      rw [Heap.object_allocate] at hkind
      split at hkind
      · next heq =>
        rw [heq]
        cases traps with
        | adapted handler callTraps => exact hhidden target (by rw [hkind]; rfl)
        | _ =>
          refine h.live_of_knows (ho target (.inr (.inr ?_)))
          rw [hkind]
          exact .inl ⟨rfl, rfl⟩
      · rw [Heap.object_of_size_le hr] at hkind
        cases hkind
  | iteration proto next source _ _ =>
    have hframed := Machine.Framed.newIterationObject proto next source m
    refine h.extend hframed.grows (fun r hr => .inl ?_) fun r target traps hr hkind => ?_
    · exact congrArg Object.kind (newIterationObject_live proto next source m hr)
    · have hproxy := (newIterationObject_fresh proto next source m hr rfl).1.1
      exact absurd hkind (Heap.kind_ne_proxy hproxy _ _)
  | symbol description => exact h.congr rfl
  | revise r hrevision =>
    exact h.modify ((hrevision.onward (h := m.heap)).proxy_cases.imp_right And.right)
  | relink r p _ _ _ => exact h.modify (.inl rfl)
  | install hnone =>
    have hinstalled := Machine.installed hnone h.intrinsics
    refine h.extend (Nat.le_of_lt hinstalled.grows) (fun r hr => .inl (hinstalled.kind_eq hr)) ?_
    intro r target traps hr hkind
    have hlive : r.index < (Run.final (Engine.install m)).size :=
      Heap.live_of_kind (by simp [hkind])
    have hproxy := (hinstalled.added r hr hlive).1.1
    exact absurd hkind (Heap.kind_ne_proxy hproxy _ _)

end Machine.Layered

namespace Discipline

/-- What is layered stays so. -/
def layers : Discipline where
  knows := places.knows
  allows _ := True
  scripted := True
  prompt := False
  keeps m m' := m.Layered → m'.Layered
  knows_mono := places.knows_mono
  knows_fresh := places.knows_fresh
  knows_intrinsic := places.knows_intrinsic
  keeps_refl _ := id
  keeps_trans h h' := h' ∘ h
  keeps_change hchange h := h.change hchange
  keeps_visit _ hkeeps h := (hkeeps (h.congr rfl)).congr rfl
  keeps_settle {m s m' iterator array c c'} _ _ _ _ _ _ hkeeps h := by
    refine (hkeeps h).modify ?_
    split
    · exact .inr rfl
    · exact .inl rfl

theorem layers_unsourced : layers.Unsourced fun _ => True where
  keeps _ _ hkeeps h := (hkeeps (h.congr rfl)).congr rfl
  property _ _ := trivial

end Discipline

/-- A new realm has no proxies. -/
theorem layered_initialMachine (options : Options) : (Session.initialMachine options).Layered := by
  have hproxy : ∀ i < (Session.initialMachine options).heap.objects.size,
      ((Session.initialMachine options).heap.object ⟨i⟩).isProxy = false := by
    obtain ⟨_ | _, _ | _⟩ := options <;> decide +kernel
  refine ⟨(sound_initialMachine (D := .places) (Nat.zero_le _) options).2,
    fun p target traps hkind => ?_⟩
  have hlive : p.index < (Session.initialMachine options).heap.objects.size :=
    Heap.live_of_kind (by simp [hkind])
  exact absurd hkind (Heap.kind_ne_proxy (hproxy p.index hlive) _ _)

namespace Machine.Attained

variable {m : Machine}

/-- **At every moment of a history targets are older than their proxies.** -/
theorem layered (hm : m.Attained) : m.Layered := by
  have hunsourced := Discipline.layers_unsourced
  induction hm with
  | initial options => exact layered_initialMachine options
  | moment hm h ih =>
    obtain ⟨hsound, hsize⟩ := hm.sound (D := .layers) trivial (fun _ => trivial) hunsourced
      (fun _ _ => .inl) (Nat.zero_le _)
    obtain ⟨hbefore, hafter⟩ := h.follows (D := .layers) trivial (fun _ => trivial) hunsourced
      (fun _ _ => .inl) hsize hsound
    exact hafter.keeps (hbefore.keeps ih)

/-- Prototypes exist. -/
theorem prototype_live (hm : m.Attained) {r q : Ref}
    (hq : (m.heap.object r).prototype = some q) : q.index < m.size := by
  obtain ⟨⟨-, hseen⟩, -⟩ := hm.sound (D := .layers) trivial (fun _ => trivial)
    Discipline.layers_unsourced (fun _ _ => .inl) (Nat.zero_le _)
  exact hm.layered.live_of_knows (hseen q (.inl ⟨r, .inl ⟨q, hq, rfl⟩⟩))

end Machine.Attained

/-! ## The object under all proxies -/

/-- The second object is the target of the first, a proxy. -/
def Heap.Target (h : Heap) (p target : Ref) : Prop := ∃ traps, h.kind p = .proxy target traps

/-- A way through proxies that has come to its end does not go on. -/
theorem Heap.rootWithin_succ {h : Heap} {fuel : Nat} {r : Ref}
    (hproxy : (h.object (h.rootWithin fuel r)).isProxy = false) :
    h.rootWithin (fuel + 1) r = h.rootWithin fuel r := by
  induction fuel generalizing r with
  | zero =>
    have hproxy : (h.object r).isProxy = false := hproxy
    unfold Heap.rootWithin
    split
    · next hkind => exact absurd hkind (Heap.kind_ne_proxy hproxy _ _)
    · rfl
  | succ fuel ih =>
    unfold Heap.rootWithin at hproxy ⊢
    split
    · next hkind =>
      simp only [hkind] at hproxy
      exact ih hproxy
    · rfl

namespace Machine.Layered

variable {m : Machine} (h : m.Layered)

include h

/-- A step through proxies leads to an older object, so there are no more steps than older
objects. -/
theorem rootWithin {fuel : Nat} {r : Ref} (hfuel : r.index ≤ fuel) :
    ReflTransGen m.heap.Target r (m.heap.rootWithin fuel r) ∧
      (m.heap.object (m.heap.rootWithin fuel r)).isProxy = false := by
  induction fuel generalizing r with
  | zero =>
    refine ⟨.refl, ?_⟩
    cases hkind : m.heap.kind r with
    | proxy target traps =>
      have hlt := h.targets r target traps hkind
      omega
    | _ =>
      have hkind : (m.heap.object r).kind = _ := hkind
      simp [Heap.rootWithin, Object.isProxy, hkind]
  | succ fuel ih =>
    cases hkind : m.heap.kind r with
    | proxy target traps =>
      have hlt := h.targets r target traps hkind
      obtain ⟨htargets, hproxy⟩ := ih (r := target) (by omega)
      simp only [Heap.rootWithin, hkind]
      exact ⟨.head ⟨traps, hkind⟩ htargets, hproxy⟩
    | _ =>
      have hkind' : (m.heap.object r).kind = _ := hkind
      simp only [Heap.rootWithin, hkind]
      exact ⟨.refl, by simp [Object.isProxy, hkind']⟩

/-- Under all proxies there is an object that is none. -/
theorem root (r : Ref) :
    ReflTransGen m.heap.Target r (m.heap.root r) ∧
      (m.heap.object (m.heap.root r)).isProxy = false := by
  by_cases hr : r.index < m.heap.objects.size
  · exact h.rootWithin (Nat.le_of_lt hr)
  · have hproxy : (m.heap.object r).isProxy = false := by
      rw [Heap.object_of_size_le (Nat.le_of_not_lt hr)]
      rfl
    rw [Heap.root_eq_self hproxy]
    exact ⟨.refl, hproxy⟩

/-- A proxy and its target have the same object under them. -/
theorem root_target {p target : Ref} {traps : TrapTable}
    (hkind : m.heap.kind p = .proxy target traps) : m.heap.root p = m.heap.root target := by
  have hlive : p.index < m.heap.objects.size := Heap.live_of_kind (by simp [hkind])
  have hlt := h.targets p target traps hkind
  obtain ⟨fuel, hfuel⟩ : ∃ fuel, m.heap.objects.size = fuel + 1 :=
    ⟨m.heap.objects.size - 1, by omega⟩
  have hle : target.index ≤ fuel := by omega
  have hproxy := (h.rootWithin hle).2
  unfold Heap.root
  rw [hfuel, Heap.rootWithin_succ hproxy, Heap.rootWithin, hkind]

end Machine.Layered

end ObjectModel
