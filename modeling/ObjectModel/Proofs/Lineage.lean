import Mathlib.Data.Finset.Card
import ObjectModel.Proofs.Description
import ObjectModel.Proofs.Kinds
import ObjectModel.Proofs.LateInstallation

/-!
# Prototypes and targets lead upwards

A realm that starts with its extensions never links an object into a cycle of prototypes, and the
target of a proxy is older than the proxy (`Machine.Founded`).  New objects inherit from old ones,
and another prototype is taken only after a walk has not come back; the walk stops at the first
proxy, so a cycle through a proxy is not excluded.

In such a machine every object has a height, the number of objects above it, that falls along the
links (`Heap.height_lt`).
-/

namespace ObjectModel

open Relation

/-! ## Links -/

namespace Heap

variable {h h' : Heap} {a b r : Ref}

/-- The second object is the prototype of the first, which is not a proxy. -/
def Rise (h : Heap) (a b : Ref) : Prop :=
  (h.object a).isProxy = false ∧ (h.object a).prototype = some b

/-- A way up that ends at no proxy meets none. -/
theorem link_of_rise (hrise : TransGen h.Rise a b) (hb : (h.object b).isProxy = false) :
    TransGen h.Link a b := by
  induction hrise using TransGen.head_induction_on with
  | single hlast => exact .single ⟨hlast.1, hlast.2, hb⟩
  | head hfirst hrest ih =>
    obtain ⟨c, hc, -⟩ := TransGen.head'_iff.1 hrest
    exact .head ⟨hfirst.1, hfirst.2, hc.1⟩ ih

/-- No way up comes back. -/
theorem Acyclic.rise (hacyclic : h.Acyclic) (r : Ref) : ¬ TransGen h.Rise r r := by
  intro hrise
  obtain ⟨b, hb, -⟩ := TransGen.head'_iff.1 hrise
  exact hacyclic r (link_of_rise hrise hb.1)

/-- A walk that does not find the object has passed all that is linked above. -/
theorem not_reaches_of_chainReaches {o : Ref} {fuel : Nat} {p : Ref}
    (hfree : h.chainReaches o fuel (some p) = some false) : ¬ ReflTransGen h.Link p o := by
  induction fuel generalizing p with
  | zero => cases hfree
  | succ fuel ih =>
    intro hreach
    rw [chainReaches] at hfree
    split at hfree
    · cases hfree
    · next hne =>
      rcases hreach.cases_head with rfl | ⟨q, hlink, hrest⟩
      · exact hne rfl
      · rw [hlink.1, hlink.2.1] at hfree
        exact ih hfree hrest

/-- A heap is acyclic if the walk from each object does not come back. -/
theorem acyclic_of_chainReaches
    (hfree : ∀ r : Ref, r.index < h.objects.size →
      h.chainReaches r h.objects.size (h.object r).prototype = some false) : h.Acyclic := by
  intro r hcycle
  obtain ⟨b, hlink, hrest⟩ := TransGen.head'_iff.1 hcycle
  have hlive : r.index < h.objects.size := by
    refine Nat.lt_of_not_le fun hr => ?_
    have hnone := hlink.2.1
    rw [object_of_size_le hr] at hnone
    cases hnone
  have hwalk := hfree r hlive
  rw [hlink.2.1] at hwalk
  exact not_reaches_of_chainReaches hwalk hrest

end Heap

/-! ## Revisions -/

namespace Object

variable {o o' : Object}

theorem prototype_define? {k : Key} {d : Descriptor} (h : o.define? k d = some o') :
    o'.prototype = o.prototype := by
  obtain ⟨p, -, rfl⟩ := exists_of_define? h
  rfl

theorem prototype_delete? {k : Key} (h : o.delete? k = some o') : o'.prototype = o.prototype := by
  obtain ⟨t, rfl, -⟩ := exists_of_delete? h
  rfl

theorem prototype_deleteIndexes (o : Object) (is : List Nat) :
    (o.deleteIndexes is).1.prototype = o.prototype := by
  induction is generalizing o with
  | nil => rfl
  | cons i rest ih =>
    rw [deleteIndexes]
    split
    · next o' hdelete => exact (ih o').trans (prototype_delete? hdelete)
    · rfl

theorem prototype_resize (o : Object) (length : Nat) (writable : Bool) :
    (o.resize length writable).1.prototype = o.prototype := by
  have hshrink : (o.shrink length writable).1.prototype = o.prototype := by
    have hdeleted := o.prototype_deleteIndexes (o.properties.indexesFrom length).reverse
    unfold shrink
    split
    · next heq =>
      rw [heq] at hdeleted
      exact hdeleted
    · next heq =>
      rw [heq] at hdeleted
      exact hdeleted
  unfold resize
  split
  · split
    · split <;> rfl
    · split
      · exact hshrink
      · rfl
  · rfl

/-- No revision changes the prototype. -/
theorem Revision.prototype {allows : Descriptor → Prop} (h : Revision allows o o') :
    o'.prototype = o.prototype := by
  cases h with
  | define k d _ _ hd =>
    cases k with
    | index i =>
      have hd : o.defineElement? i d = some o' := hd
      unfold defineElement? at hd
      split at hd
      · split at hd
        · cases hd
        · obtain ⟨o₁, hdefine, rfl⟩ := Option.map_eq_some_iff.1 hd
          rw [← prototype_define? hdefine]
          split <;> rfl
      · exact prototype_define? hd
    | _ => exact prototype_define? hd
  | delete k _ hd => exact prototype_delete? hd
  | restrictLength d =>
    unfold Object.restrictLength
    split
    · split
      · rfl
      · split <;> rfl
    · rfl
  | resize length writable _ => exact o.prototype_resize length writable
  | close => rfl
  | turn _ => rfl

end Object

/-! ## The invariant -/

/-- The extensions are there, prototypes exist and form no cycle, and targets are older than their
proxies. -/
structure Machine.Founded (m : Machine) : Prop where
  installed : m.extensions.isSome = true
  intrinsics : Intrinsic.all.length ≤ m.size
  prototypes : ∀ r q, (m.heap.object r).prototype = some q → q.index < m.size
  acyclic : m.heap.Acyclic
  targets : ∀ p target traps, m.heap.kind p = .proxy target traps → target.index < p.index

/-- Links that differ from acyclic ones only where they leave one element, and from there never lead
back to it by the old ones, are acyclic. -/
theorem not_transGen_of_redirected {α : Type} {old new : α → α → Prop} {r : α}
    (hkept : ∀ a b, a ≠ r → new a b → old a b) (hacyclic : ∀ a, ¬ TransGen old a a)
    (hfree : ∀ q, new r q → ¬ ReflTransGen old q r) (a : α) : ¬ TransGen new a a := by
  intro hcycle
  -- a cycle that is not an old one goes through the element
  have hsplit {b : α} (hab : TransGen new a b) :
      TransGen old a b ∨ ReflTransGen new a r ∧ TransGen new r b := by
    induction hab with
    | @single b hab =>
      by_cases ha : a = r
      · subst ha
        exact .inr ⟨.refl, .single hab⟩
      · exact .inl (.single (hkept a b ha hab))
    | @tail b c hab hbc ih =>
      rcases ih with hold | ⟨hto, hfrom⟩
      · by_cases hb : b = r
        · subst hb
          exact .inr ⟨hab.to_reflTransGen, .single hbc⟩
        · exact .inl (hold.tail (hkept b c hb hbc))
      · exact .inr ⟨hto, hfrom.tail hbc⟩
  have hback {b : α} (hb : ReflTransGen new b r) : ReflTransGen old b r := by
    induction hb using ReflTransGen.head_induction_on with
    | refl => exact .refl
    | @head b c hbc _ ih =>
      by_cases hb : b = r
      · subst hb
        exact .refl
      · exact .head (hkept b c hb hbc) ih
  rcases hsplit hcycle with hold | ⟨hto, hfrom⟩
  · exact hacyclic a hold
  · obtain ⟨q, hrq, hrest⟩ := TransGen.head'_iff.1 (hfrom.trans_left hto)
    exact hfree q hrq (hback hrest)

namespace Machine.Founded

variable {m m' : Machine} {r : Ref}

/-- Places that are known exist. -/
theorem live_of_knows (h : m.Founded) (hr : Discipline.places.knows m.size r) :
    r.index < m.size :=
  hr.elim id fun hr => Nat.lt_of_lt_of_le hr h.intrinsics

/-- New objects inherit from old ones, and new proxies have older targets. -/
theorem extend (h : m.Founded) (hextensions : m'.extensions = m.extensions)
    (hsize : m.size ≤ m'.size)
    (hold : ∀ r : Ref, r.index < m.size → m'.heap.object r = m.heap.object r)
    (hnew : ∀ r q : Ref, m.size ≤ r.index → (m'.heap.object r).prototype = some q →
      q.index < m.size)
    (htarget : ∀ r target traps, m.size ≤ r.index → m'.heap.kind r = .proxy target traps →
      target.index < r.index) : m'.Founded := by
  have hprototype {a b : Ref} (hab : (m'.heap.object a).prototype = some b) : b.index < m.size := by
    by_cases ha : a.index < m.size
    · rw [hold a ha] at hab
      exact h.prototypes a b hab
    · exact hnew a b (Nat.le_of_not_lt ha) hab
  refine ⟨hextensions ▸ h.installed, Nat.le_trans h.intrinsics hsize,
    fun r q hq => Nat.lt_of_lt_of_le (hprototype hq) hsize, fun r hcycle => ?_,
    fun p target traps hkind => ?_⟩
  · -- a cycle ends at an old object, and links lead from old objects to old ones
    have hback {a b : Ref} (ha : a.index < m.size) (hab : TransGen m'.heap.Link a b) :
        TransGen m.heap.Link a b := by
      induction hab using TransGen.head_induction_on with
      | single hlast =>
        have hlive := hprototype hlast.2.1
        unfold Heap.Link at hlast
        rw [hold _ ha, hold _ hlive] at hlast
        exact .single hlast
      | head hfirst _ ih =>
        have hlive := hprototype hfirst.2.1
        unfold Heap.Link at hfirst
        rw [hold _ ha, hold _ hlive] at hfirst
        exact .head hfirst (ih hlive)
    obtain ⟨b, -, hlast⟩ := TransGen.tail'_iff.1 hcycle
    exact h.acyclic r (hback (hprototype hlast.2.1) hcycle)
  · by_cases hp : p.index < m.size
    · refine h.targets p target traps ?_
      rw [← hkind, Heap.kind, Heap.kind, hold p hp]
    · exact htarget p target traps (Nat.le_of_not_lt hp) hkind

/-- Only the objects matter, and that the extensions are there. -/
theorem congr (h : m.Founded) (hextensions : m'.extensions = m.extensions)
    (hobjects : m'.heap.objects = m.heap.objects) : m'.Founded := by
  have hobject (r : Ref) : m'.heap.object r = m.heap.object r := by
    unfold Heap.object
    rw [hobjects]
  refine h.extend hextensions (Nat.le_of_eq (congrArg Array.size hobjects).symm)
    (fun r _ => hobject r) (fun r q _ hq => ?_) fun r target traps _ hkind => ?_
  · rw [hobject] at hq
    exact h.prototypes r q hq
  · refine h.targets r target traps (Eq.trans ?_ hkind)
    exact (congrArg Object.kind (hobject r)).symm

/-- An object is changed, but neither its prototype nor, if it is or becomes a proxy, its kind. -/
theorem modify (h : m.Founded) {f : Object → Object}
    (hprototype : (f (m.heap.object r)).prototype = (m.heap.object r).prototype)
    (hkind : (f (m.heap.object r)).kind = (m.heap.object r).kind ∨
      (m.heap.object r).isProxy = false ∧ (f (m.heap.object r)).isProxy = false) :
    (m.withHeap (m.heap.modify r f)).Founded := by
  have hobject (p : Ref) :
      ((m.heap.modify r f).object p).prototype = (m.heap.object p).prototype ∧
        (((m.heap.modify r f).object p).kind = (m.heap.object p).kind ∨
          (m.heap.object p).isProxy = false ∧
            ((m.heap.modify r f).object p).isProxy = false) := by
    rw [Heap.object_modify]
    split
    · next hp =>
      rw [hp.1]
      exact ⟨hprototype, hkind⟩
    · exact ⟨rfl, .inl rfl⟩
  have hproxy (p : Ref) : ((m.heap.modify r f).object p).isProxy = (m.heap.object p).isProxy := by
    rcases (hobject p).2 with hsame | ⟨hold, hnew⟩
    · unfold Object.isProxy
      rw [hsame]
    · rw [hold, hnew]
  have hlink : (m.heap.modify r f).Link = m.heap.Link := by
    funext a b
    unfold Heap.Link
    rw [(hobject a).1, hproxy, hproxy]
  refine ⟨h.installed, ?_, fun p q hq => ?_, fun p => ?_, fun p target traps hp => ?_⟩
  · rw [size_withHeap, Heap.size_modify]
    exact h.intrinsics
  · rw [size_withHeap, Heap.size_modify]
    exact h.prototypes p q ((hobject p).1.symm.trans hq)
  · show ¬ TransGen (m.heap.modify r f).Link p p
    rw [hlink]
    exact h.acyclic p
  · rcases (hobject p).2 with hsame | ⟨-, hnew⟩
    · exact h.targets p target traps (hsame.symm.trans hp)
    · exact absurd hp (Heap.kind_ne_proxy hnew _ _)

/-- An object takes another prototype, from which the walk does not lead back to it. -/
theorem relink (h : m.Founded) {p : Option Ref}
    (hp : ∀ q, p = some q → q.index < m.size)
    (hfree : m.heap.chainReaches r m.heap.objects.size p = some false) :
    (m.withHeap (m.heap.modify r fun o => { o with prototype := p })).Founded := by
  let h' := m.heap.modify r fun o => { o with prototype := p }
  have hkind (a : Ref) : h'.kind a = m.heap.kind a := by
    show (h'.object a).kind = _
    rw [Heap.object_modify]
    split
    · next ha =>
      rw [ha.1]
      rfl
    · rfl
  have hproxy (a : Ref) : (h'.object a).isProxy = (m.heap.object a).isProxy := by
    unfold Object.isProxy
    rw [show (h'.object a).kind = (m.heap.object a).kind from hkind a]
  have hprototype (a : Ref) : (h'.object a).prototype = (m.heap.object a).prototype ∨
      a = r ∧ (h'.object a).prototype = p := by
    rw [Heap.object_modify]
    split
    · next ha =>
      rw [ha.1]
      exact .inr ⟨rfl, rfl⟩
    · exact .inl rfl
  have hlink (a b : Ref) (ha : a ≠ r) (hab : h'.Link a b) : m.heap.Link a b := by
    unfold Heap.Link at hab
    rw [hproxy, hproxy, (hprototype a).resolve_right fun hr => ha hr.1] at hab
    exact hab
  have hnew (q : Ref) (hrq : h'.Link r q) : p = some q := by
    have hq := hrq.2.1
    rw [Heap.object_modify] at hq
    split at hq
    · exact hq
    · next hdead =>
      rw [Heap.object_of_size_le (Nat.le_of_not_lt fun hlive => hdead ⟨rfl, hlive⟩)] at hq
      cases hq
  refine ⟨h.installed, ?_, fun a q hq => ?_, ?_, fun a target traps ha => ?_⟩
  · rw [size_withHeap, Heap.size_modify]
    exact h.intrinsics
  · rw [size_withHeap, Heap.size_modify]
    rcases hprototype a with hsame | ⟨-, hnew⟩
    · exact h.prototypes a q (hsame.symm.trans hq)
    · exact hp q (hnew.symm.trans hq)
  · refine not_transGen_of_redirected hlink h.acyclic fun q hrq => ?_
    rw [hnew q hrq] at hfree
    exact Heap.not_reaches_of_chainReaches hfree
  · exact h.targets a target traps ((hkind a).symm.trans ha)

end Machine.Founded

/-- The iteration object and its next method inherit from places that were given or intrinsic, and
neither is a proxy or an array. -/
theorem newIterationObject_fresh (proto : Ref) (next : Symbol) (source : IterationSource)
    (m : Machine) {r : Ref} {o : Object} (hr : m.size ≤ r.index)
    (ho : (Run.final (Engine.newIterationObject proto next source m)).heap.object r = o) :
    (o.isProxy = false ∧ o.isArray = false) ∧ ∀ q, o.prototype = some q →
      q = proto ∨ q = Intrinsic.functionPrototype.ref := by
  have hr : m.heap.objects.size ≤ r.index := hr
  have ho : (Heap.modify ((m.heap.allocate _).2.allocate _).2 ⟨m.heap.objects.size⟩ _).object r =
    o := ho
  rw [Heap.object_modify] at ho
  split at ho
  · rw [Heap.object_allocate, Heap.size_allocate, if_neg (by simp), Heap.object_allocate,
      if_pos rfl] at ho
    subst ho
    refine ⟨⟨rfl, rfl⟩, fun q hq => ?_⟩
    cases hq
    exact .inl rfl
  · next hfirst =>
    rw [Heap.object_allocate, Heap.size_allocate] at ho
    split at ho
    · subst ho
      refine ⟨⟨rfl, rfl⟩, fun q hq => ?_⟩
      cases hq
      exact .inr rfl
    · have hne : r.index ≠ m.heap.objects.size := by
        intro heq
        refine hfirst ⟨?_, ?_⟩
        · rw [← heq]
        · rw [Heap.size_allocate, Heap.size_allocate]
          exact Nat.lt_succ_of_lt (Nat.lt_succ_self _)
      rw [Heap.object_allocate, if_neg hne, Heap.object_of_size_le hr] at ho
      subst ho
      refine ⟨⟨rfl, rfl⟩, fun q hq => ?_⟩
      cases hq

namespace Machine.Founded

variable {m m' : Machine}

/-- **Every change of a machine keeps it founded.** -/
theorem change (h : m.Founded) {allows : Descriptor → Prop}
    (hchange : m.Change Discipline.places.knows allows m') : m'.Founded := by
  cases hchange with
  | beside hheap _ hextensions _ => exact h.congr hextensions (congrArg Heap.objects hheap)
  | allocate o ho _ hhidden =>
    have hnew {r : Ref} (hr : m.size ≤ r.index) :
        (m.heap.allocate o).2.object r = o ∧ r.index = m.size ∨
          (m.heap.allocate o).2.object r = default := by
      rw [Heap.object_allocate]
      split
      · next heq => exact .inl ⟨rfl, heq⟩
      · exact .inr (Heap.object_of_size_le hr)
    refine h.extend rfl (Grown.allocate m o).size_le (fun r hr => (Grown.allocate m o).object hr)
      (fun r q hr hq => ?_) fun r target traps hr hkind => ?_
    · have hq : ((m.heap.allocate o).2.object r).prototype = some q := hq
      rcases hnew hr with ⟨ho', -⟩ | hdefault
      · rw [ho'] at hq
        exact h.live_of_knows (ho q (.inl ⟨q, hq, rfl⟩))
      · rw [hdefault] at hq
        cases hq
    · have hkind : ((m.heap.allocate o).2.object r).kind = .proxy target traps := hkind
      rcases hnew hr with ⟨ho', hindex⟩ | hdefault
      · rw [ho'] at hkind
        rw [hindex]
        cases traps with
        | adapted handler callTraps => exact hhidden target (by rw [hkind]; rfl)
        | _ =>
          refine h.live_of_knows (ho target (.inr (.inr ?_)))
          rw [hkind]
          exact .inl ⟨rfl, rfl⟩
      · rw [hdefault] at hkind
        cases hkind
  | iteration proto next source hproto _ =>
    have hframed := Machine.Framed.newIterationObject proto next source m
    refine h.extend rfl hframed.grows (fun r hr => newIterationObject_live proto next source m hr)
      (fun r q hr hq => ?_) fun r target traps hr hkind => ?_
    · rcases (newIterationObject_fresh proto next source m hr rfl).2 q hq with rfl | rfl
      · exact h.live_of_knows hproto
      · exact h.live_of_knows (Discipline.places.knows_intrinsic _ _)
    · have hproxy := (newIterationObject_fresh proto next source m hr rfl).1.1
      exact absurd hkind (Heap.kind_ne_proxy hproxy _ _)
  | symbol description => exact h.congr rfl rfl
  | revise r hrevision =>
    exact h.modify hrevision.prototype (hrevision.onward (h := m.heap)).proxy_cases
  | relink r p _ hp hfree => exact h.relink (fun q hq => h.live_of_knows (hp q ⟨q, hq, rfl⟩)) hfree
  | install hnone =>
    have hinstalled := h.installed
    rw [hnone] at hinstalled
    cases hinstalled

end Machine.Founded

namespace Discipline

/-- What is founded stays so. -/
def lineage : Discipline where
  knows := places.knows
  allows _ := True
  scripted := True
  prompt := False
  keeps m m' := m.Founded → m'.Founded
  knows_mono := places.knows_mono
  knows_fresh := places.knows_fresh
  knows_intrinsic := places.knows_intrinsic
  keeps_refl _ := id
  keeps_trans h h' := h' ∘ h
  keeps_change hchange h := h.change hchange
  keeps_visit _ hkeeps h := (hkeeps (h.congr rfl rfl)).congr rfl rfl
  keeps_settle {m s m' iterator array c c'} _ _ _ _ _ _ hkeeps h := by
    refine (hkeeps h).modify ?_ ?_
    · split <;> rfl
    · split
      · next source c₁ hkind => exact .inr ⟨by simp [Object.isProxy, hkind], rfl⟩
      · exact .inl rfl

theorem lineage_unsourced : lineage.Unsourced fun _ => True where
  keeps _ _ hkeeps h := (hkeeps (h.congr rfl rfl)).congr rfl rfl
  property _ _ := trivial

end Discipline

/-- A realm that starts with its extensions is founded. -/
theorem founded_initialMachine {options : Options} (h : options.withoutExtensions = false) :
    (Session.initialMachine options).Founded := by
  obtain ⟨hinstalled, hfree, hproxy⟩ :
      (Session.initialMachine options).extensions.isSome = true ∧
      (∀ i < (Session.initialMachine options).heap.objects.size,
        (Session.initialMachine options).heap.chainReaches ⟨i⟩
          (Session.initialMachine options).heap.objects.size
          ((Session.initialMachine options).heap.object ⟨i⟩).prototype = some false) ∧
      ∀ i < (Session.initialMachine options).heap.objects.size,
        ((Session.initialMachine options).heap.object ⟨i⟩).isProxy = false := by
    obtain ⟨_, printInternals⟩ := options
    subst h
    cases printInternals <;> decide +kernel
  obtain ⟨hsound, hsize⟩ := sound_initialMachine (D := .places) (Nat.zero_le _) options
  refine ⟨hinstalled, hsize, fun r q hq => ?_, ?_, fun p target traps hkind => ?_⟩
  · rcases hsound.2 q (.inl ⟨r, .inl ⟨q, hq, rfl⟩⟩) with hlive | hintrinsic
    · exact hlive
    · exact Nat.lt_of_lt_of_le hintrinsic hsize
  · exact Heap.acyclic_of_chainReaches fun r hr => hfree r.index hr
  · have hlive : p.index < (Session.initialMachine options).heap.objects.size :=
      Heap.live_of_kind (by simp [hkind])
    exact absurd hkind (Heap.kind_ne_proxy (hproxy p.index hlive) _ _)

/-- **A realm that starts with its extensions is founded at every moment of its history.** -/
theorem founded_of_before {options : Options} (h : options.withoutExtensions = false) {m : Machine}
    (hm : ReflTransGen Machine.Before (Session.initialMachine options) m) : m.Founded :=
  (follows_of_before (D := .lineage) trivial (fun _ => trivial) Discipline.lineage_unsourced
    (fun _ _ => .inl) (Nat.zero_le _) (.initial options) hm).keeps (founded_initialMachine h)

/-! ## Heights -/

namespace Heap

open Classical in
/-- How many objects stand above an object. -/
noncomputable def height (h : Heap) (r : Ref) : Nat :=
  ((Finset.range h.objects.size).filter fun i => TransGen h.Rise r ⟨i⟩).card

variable {h : Heap} {a b r : Ref}

open Classical in
/-- **The height falls along prototypes.** -/
theorem height_lt (hacyclic : h.Acyclic) (hb : b.index < h.objects.size) (hrise : h.Rise a b) :
    h.height b < h.height a := by
  refine Finset.card_lt_card (Finset.ssubset_iff_of_subset ?_ |>.2 ⟨b.index, ?_, ?_⟩)
  · intro i hi
    rw [Finset.mem_filter] at hi ⊢
    exact ⟨hi.1, .head hrise hi.2⟩
  · rw [Finset.mem_filter, Finset.mem_range]
    exact ⟨hb, .single hrise⟩
  · rw [Finset.mem_filter]
    exact fun hi => hacyclic.rise b hi.2

open Classical in
/-- An object is not among those above it. -/
theorem height_lt_size (hacyclic : h.Acyclic) (hr : r.index < h.objects.size) :
    h.height r < h.objects.size := by
  have hproper : (Finset.range h.objects.size).filter (fun i => TransGen h.Rise r ⟨i⟩) ⊂
      Finset.range h.objects.size := by
    refine Finset.ssubset_iff_of_subset (Finset.filter_subset _ _) |>.2 ⟨r.index, ?_, ?_⟩
    · exact Finset.mem_range.2 hr
    · rw [Finset.mem_filter]
      exact fun hi => hacyclic.rise r hi.2
  simpa [height] using Finset.card_lt_card hproper

end Heap

end ObjectModel
