import Mathlib.Tactic.ByContra
import ObjectModel.Proofs.Installation
import ObjectModel.Proofs.Integrity
import ObjectModel.Proofs.Operation

/-!
# Late installation

A realm without the extensions can get them at any time, after whatever has been done to its
objects.  Installation writes the members, the flag that lets an object take them and one prototype
link without asking the objects.  So it keeps their integrity exactly if they would have let it do
all that: `Machine.AdmitsExtensions`.
-/

namespace ObjectModel

open Intrinsic Relation

/-! ## Prototype links -/

namespace Heap

/-- The second object is the prototype of the first, and neither is a proxy. -/
def Link (h : Heap) (a b : Ref) : Prop :=
  (h.object a).isProxy = false ∧ (h.object a).prototype = some b ∧ (h.object b).isProxy = false

/-- No object is among its own prototypes. -/
def Acyclic (h : Heap) : Prop := ∀ r, ¬ TransGen h.Link r r

theorem Link.live {m : Machine} {a b : Ref} (hm : m.Live) (h : m.heap.Link a b) :
    a.index < m.size ∧ b.index < m.size := by
  refine ⟨Nat.lt_of_not_le fun ha => ?_, hm.referents a b (.inl ⟨b, h.2.1, rfl⟩)⟩
  have hnone := h.2.1
  rw [object_of_size_le ha] at hnone
  cases hnone

end Heap

/-! ## Links after installation -/

namespace Machine.Installed

variable {m m' : Machine} {a b r : Ref}

theorem kind_eq (h : m.Installed m') (hr : r.index < m.size) :
    (m'.heap.object r).kind = (m.heap.object r).kind := by
  obtain ⟨o, ho, hobject⟩ := h.old r hr
  rw [hobject, ← ho.kind]
  split <;> rfl

theorem isProxy_eq (h : m.Installed m') (hr : r.index < m.size) :
    (m'.heap.object r).isProxy = (m.heap.object r).isProxy := by
  unfold Object.isProxy
  rw [h.kind_eq hr]

theorem prototype_eq (h : m.Installed m') (hr : r.index < m.size)
    (hne : r ≠ listIteratorPrototype.ref) :
    (m'.heap.object r).prototype = (m.heap.object r).prototype := by
  obtain ⟨o, ho, hobject⟩ := h.old r hr
  rw [hobject, if_neg hne, ho.prototype]

theorem prototype_listIterator (h : m.Installed m') (hm : m.Live) :
    (m'.heap.object listIteratorPrototype.ref).prototype = some ⟨m.size⟩ := by
  obtain ⟨o, -, hobject⟩ := h.old _ (hm.intrinsic _)
  rw [hobject, if_pos rfl]

/-- The objects that existed keep their links, but for the prototype of list iterators. -/
theorem link_iff (h : m.Installed m') (hm : m.Live) (ha : a.index < m.size)
    (hne : a ≠ listIteratorPrototype.ref) : m'.heap.Link a b ↔ m.heap.Link a b := by
  unfold Heap.Link
  rw [h.isProxy_eq ha, h.prototype_eq ha hne]
  constructor
  · rintro ⟨hproxy, hprototype, hb⟩
    rw [h.isProxy_eq (hm.referents a b (.inl ⟨b, hprototype, rfl⟩))] at hb
    exact ⟨hproxy, hprototype, hb⟩
  · rintro ⟨hproxy, hprototype, hb⟩
    rw [← h.isProxy_eq (hm.referents a b (.inl ⟨b, hprototype, rfl⟩))] at hb
    exact ⟨hproxy, hprototype, hb⟩

/-- The prototype of list iterators is linked to the iterator prototype, and this one to the
prototype of all objects. -/
theorem eq_of_link (h : m.Installed m') (hm : m.Live) (hlink : m'.heap.Link a b) :
    (a = listIteratorPrototype.ref → b = ⟨m.size⟩) ∧
      (a = ⟨m.size⟩ → b = objectPrototype.ref) := by
  refine ⟨?_, ?_⟩
  · rintro rfl
    have hb := hlink.2.1
    rw [h.prototype_listIterator hm] at hb
    cases hb
    rfl
  · rintro rfl
    have hb := hlink.2.1
    rw [h.first] at hb
    cases hb
    rfl

/-- New objects are linked to intrinsic ones. -/
theorem live_of_link (h : m.Installed m') (hm : m.Live) (ha : m.size ≤ a.index)
    (hlink : m'.heap.Link a b) : b.index < m.size := by
  have hb := hlink.2.1
  by_cases hsize : a.index < m'.size
  · rcases (h.added a ha hsize).2 with hproto | hproto
    · rw [hproto] at hb
      cases hb
      exact hm.intrinsic _
    · rw [hproto] at hb
      cases hb
      exact hm.intrinsic _
  · rw [Heap.object_of_size_le (Nat.le_of_not_lt hsize)] at hb
    cases hb

/-- A chain from an object that existed is an old one, or an old one leads to the prototype of list
iterators and the chain goes on from there. -/
theorem chain_cases (h : m.Installed m') (hm : m.Live) (ha : a.index < m.size)
    (hchain : ReflTransGen m'.heap.Link a b) :
    (b.index < m.size ∧ ReflTransGen m.heap.Link a b) ∨
      (ReflTransGen m.heap.Link a listIteratorPrototype.ref ∧
        TransGen m'.heap.Link listIteratorPrototype.ref b) := by
  induction hchain with
  | refl => exact .inl ⟨ha, .refl⟩
  | @tail b c _ hlast ih =>
    rcases ih with ⟨hlive, hold⟩ | ⟨hto, hfrom⟩
    · by_cases hlist : b = listIteratorPrototype.ref
      · subst hlist
        exact .inr ⟨hold, .single hlast⟩
      · have hlink := (h.link_iff hm hlive hlist).1 hlast
        exact .inl ⟨(hlink.live hm).2, hold.tail hlink⟩
    · exact .inr ⟨hto, hfrom.tail hlast⟩

/-- What the prototype of list iterators inherits from is the iterator prototype and what the
prototype of all objects inherits from, if that does not lead back. -/
theorem chain_listIterator (h : m.Installed m') (hm : m.Live)
    (hapart : ¬ ReflTransGen m.heap.Link objectPrototype.ref listIteratorPrototype.ref)
    (hchain : TransGen m'.heap.Link listIteratorPrototype.ref b) :
    b = ⟨m.size⟩ ∨ (b.index < m.size ∧ ReflTransGen m.heap.Link objectPrototype.ref b) := by
  obtain ⟨c, hc, hrest⟩ := TransGen.head'_iff.1 hchain
  obtain rfl := (h.eq_of_link hm hc).1 rfl
  rcases hrest.cases_head with rfl | ⟨d, hd, hrest⟩
  · exact .inl rfl
  · obtain rfl := (h.eq_of_link hm hd).2 rfl
    refine .inr ((h.chain_cases hm (hm.intrinsic _) hrest).resolve_right ?_)
    rintro ⟨hto, -⟩
    exact hapart hto

/-- Installation closes no cycle as long as the prototype of all objects does not inherit from the
prototype of list iterators. -/
theorem acyclic (h : m.Installed m') (hm : m.Live) (hacyclic : m.heap.Acyclic)
    (hapart : ¬ TransGen m.heap.Link objectPrototype.ref listIteratorPrototype.ref) :
    m'.heap.Acyclic := by
  have hapart : ¬ ReflTransGen m.heap.Link objectPrototype.ref listIteratorPrototype.ref := by
    rw [reflTransGen_iff_eq_or_transGen, not_or]
    exact ⟨by decide, hapart⟩
  intro r hcycle
  obtain ⟨x, hfirst, hrest⟩ := TransGen.head'_iff.1 hcycle
  by_cases hlist : r = listIteratorPrototype.ref
  · subst hlist
    rcases h.chain_listIterator hm hapart hcycle with hnew | ⟨-, hback⟩
    · have hlive := hm.intrinsic listIteratorPrototype
      rw [hnew] at hlive
      exact Nat.lt_irrefl _ hlive
    · exact hapart hback
  · by_cases hlive : r.index < m.size
    · have hold := (h.link_iff hm hlive hlist).1 hfirst
      rcases h.chain_cases hm (hold.live hm).2 hrest with ⟨-, hback⟩ | ⟨hto, hfrom⟩
      · exact hacyclic r (.head' hold hback)
      · rcases h.chain_listIterator hm hapart hfrom with rfl | ⟨-, hback⟩
        · exact Nat.lt_irrefl _ hlive
        · exact hapart (hback.trans (.head hold hto))
    -- a new object is linked to an old one, from which only one new object can be reached
    · have hx := h.live_of_link hm (Nat.le_of_not_lt hlive) hfirst
      rcases h.chain_cases hm hx hrest with ⟨hr, -⟩ | ⟨hto, hfrom⟩
      · exact hlive hr
      · rcases h.chain_listIterator hm hapart hfrom with rfl | ⟨hr, -⟩
        · obtain rfl := (h.eq_of_link hm hfirst).2 rfl
          exact hapart hto
        · exact hlive hr

/-- A chain to the prototype of list iterators that does not come back to it is kept. -/
theorem chain_of_old (h : m.Installed m') (hm : m.Live) (hacyclic : m.heap.Acyclic)
    (hchain : TransGen m.heap.Link a listIteratorPrototype.ref) :
    TransGen m'.heap.Link a listIteratorPrototype.ref := by
  induction hchain using TransGen.head_induction_on with
  | single hlink =>
    refine .single ((h.link_iff hm (hlink.live hm).1 ?_).2 hlink)
    rintro rfl
    exact hacyclic _ (.single hlink)
  | head hlink hrest ih =>
    refine .head ((h.link_iff hm (hlink.live hm).1 ?_).2 hlink) ih
    rintro rfl
    exact hacyclic _ (.head hlink hrest)

/-- Installation closes a cycle if the prototype of all objects inherits from the prototype of list
iterators. -/
theorem not_acyclic (h : m.Installed m') (hm : m.Live) (hacyclic : m.heap.Acyclic)
    (hchain : TransGen m.heap.Link objectPrototype.ref listIteratorPrototype.ref) :
    ¬ m'.heap.Acyclic := by
  obtain ⟨_, -, hlast⟩ := TransGen.tail'_iff.1 hchain
  obtain ⟨_, hfirst, -⟩ := TransGen.head'_iff.1 hchain
  have hnew : (m'.heap.object ⟨m.size⟩).isProxy = false :=
    (h.added ⟨m.size⟩ (Nat.le_refl _) h.grows).1.1
  have hlist : m'.heap.Link listIteratorPrototype.ref ⟨m.size⟩ := by
    refine ⟨?_, h.prototype_listIterator hm, hnew⟩
    rw [h.isProxy_eq (hm.intrinsic _)]
    exact hlast.2.2
  have hiterator : m'.heap.Link ⟨m.size⟩ objectPrototype.ref := by
    refine ⟨hnew, h.first, ?_⟩
    rw [h.isProxy_eq (hm.intrinsic _)]
    exact hfirst.1
  intro hacyclic'
  exact hacyclic' _ (.head hlist (.head hiterator (h.chain_of_old hm hacyclic hchain)))

end Machine.Installed

/-! ## Properties after installation -/

theorem exists_intrinsic_of_mem_installedKeys {r : Ref} {k : Key} (hk : k ∈ installedKeys r) :
    ∃ i : Intrinsic, i.ref = r := by
  unfold installedKeys selectedKeys at hk
  rcases List.mem_append.1 hk with hk | hk
  · obtain ⟨i, -, hi⟩ := List.mem_flatMap.1 hk
    split at hi
    · next hr => exact ⟨i, hr⟩
    · cases hi
  · split at hk
    · next hr => exact ⟨_, hr⟩
    · cases hk

/-- The members are methods: none stands at an index or is the length. -/
theorem named_of_mem_installedKeys {r : Ref} {k : Key} (hk : k ∈ installedKeys r) :
    k.isIndex = false ∧ k ≠ .length := by
  have hextension (i : Intrinsic) :
      ∀ k ∈ i.extensionMembers.map Member.key, k.isIndex = false ∧ k ≠ .length := by
    cases i <;> decide
  have hglobal : ∀ k ∈ [Key.ofString "Proxy", Key.ofString "Iterator"],
      k.isIndex = false ∧ k ≠ .length := by decide
  unfold installedKeys selectedKeys at hk
  rcases List.mem_append.1 hk with hk | hk
  · obtain ⟨i, -, hi⟩ := List.mem_flatMap.1 hk
    split at hi
    · exact hextension i k hi
    · cases hi
  · split at hk
    · exact hglobal k hk
    · cases hk

theorem length_not_mem_installedKeys (r : Ref) : Key.length ∉ installedKeys r :=
  fun hk => (named_of_mem_installedKeys hk).2 rfl

theorem Property.toDescriptor_inj {p p' : Property} (h : p.toDescriptor = p'.toDescriptor) :
    p = p' := by
  obtain ⟨content, enumerable, configurable⟩ := p
  obtain ⟨content', enumerable', configurable'⟩ := p'
  cases content <;> cases content' <;> simp_all [toDescriptor]

namespace Machine.Installed

variable {m m' : Machine} {r : Ref} {k : Key}

theorem extensible_eq (h : m.Installed m') (hr : r.index < m.size) :
    (m'.heap.object r).extensible =
      ((m.heap.object r).extensible || !(installedKeys r).isEmpty) := by
  obtain ⟨o, ho, hobject⟩ := h.old r hr
  rw [hobject, ← ho.extensible]
  split <;> rfl

/-- Own properties under other keys stay as they are. -/
theorem ownDescriptor_eq (h : m.Installed m') (hr : r.index < m.size)
    (hk : k ∉ installedKeys r) :
    (m'.heap.object r).ownDescriptor k = (m.heap.object r).ownDescriptor k := by
  obtain ⟨o, ho, hobject⟩ := h.old r hr
  have hfind : (m'.heap.object r).properties.find? k = (m.heap.object r).properties.find? k := by
    rw [hobject, ← ho.stored k hk]
    split <;> rfl
  unfold Object.ownDescriptor
  rw [h.kind_eq hr, hfind]

/-- Own properties under the keys of members do not: the new ones refer to new objects. -/
theorem ownDescriptor_ne (h : m.Installed m') (hm : m.Live) (hk : k ∈ installedKeys r)
    {d : Descriptor} (hd : (m.heap.object r).ownDescriptor k = some d) :
    (m'.heap.object r).ownDescriptor k ≠ some d := by
  obtain ⟨i, rfl⟩ := exists_intrinsic_of_mem_installedKeys hk
  have hlength : k ≠ .length := by
    rintro rfl
    exact length_not_mem_installedKeys _ hk
  obtain ⟨o, ho, hobject⟩ := h.old i.ref (hm.intrinsic i)
  obtain ⟨p, hfind, q, hq, hfresh⟩ := ho.fresh k hk
  have hfind : (m'.heap.object i.ref).properties.find? k = some p := by
    rw [hobject, ← hfind]
    split <;> rfl
  rw [Object.ownDescriptor_eq fun _ => hlength] at hd ⊢
  rw [hfind]
  intro hsame
  obtain ⟨p', hfind', hp'⟩ := Option.map_eq_some_iff.1 hd
  obtain rfl : p = p' := Property.toDescriptor_inj ((Option.some.inj hsame).trans hp'.symm)
  have hlive : q.index < m.size :=
    hm.referents i.ref q (.inr (.inl ⟨(k, p), Slots.mem_entries.2 hfind', .inr hq⟩))
  exact Nat.not_le.2 hlive hfresh

end Machine.Installed

/-! ## Integrity -/

/-- The rules of integrity that hold between two states of all objects: one that takes no more
properties still takes none, with the same prototype and no new own key; own properties that are
not configurable are unchanged; no cycle of prototypes comes up. -/
structure Machine.KeepsIntegrity (m m' : Machine) : Prop where
  closed : ∀ r, (m.heap.object r).extensible = false →
    (m'.heap.object r).extensible = false ∧
      (m'.heap.object r).prototype = (m.heap.object r).prototype ∧
      ∀ k ∈ (m'.heap.object r).ownKeys, k ∈ (m.heap.object r).ownKeys
  fixed : ∀ r k d, (m.heap.object r).ownDescriptor k = some d → d.configurable = some false →
    (m'.heap.object r).ownDescriptor k = some d
  acyclic : m.heap.Acyclic → m'.heap.Acyclic

/-- The objects would accept the extensions: those that get members take properties and have
nothing fixed under the same keys, the prototype of list iterators can be linked, and the link
closes no cycle. -/
structure Machine.AdmitsExtensions (m : Machine) : Prop where
  extensible : ∀ r, installedKeys r ≠ [] → (m.heap.object r).extensible = true
  configurable : ∀ r, ∀ k ∈ installedKeys r, ∀ d, (m.heap.object r).ownDescriptor k = some d →
    d.configurable ≠ some false
  relinkable : (m.heap.object listIteratorPrototype.ref).extensible = true
  apart : m.heap.Acyclic →
    ¬ TransGen m.heap.Link objectPrototype.ref listIteratorPrototype.ref

namespace Machine.Installed

variable {m m' : Machine}

theorem keepsIntegrity (h : m.Installed m') (hm : m.Live) (hadmits : m.AdmitsExtensions) :
    m.KeepsIntegrity m' := by
  refine ⟨fun r hclosed => ?_, fun r k d hd hfixed => ?_, fun hacyclic => ?_⟩
  · have hr : r.index < m.size := by
      refine Nat.lt_of_not_le fun hr => ?_
      rw [Heap.object_of_size_le hr] at hclosed
      cases hclosed
    have hkeys : installedKeys r = [] := by
      by_contra hkeys
      rw [hadmits.extensible r hkeys] at hclosed
      cases hclosed
    have hlist : r ≠ listIteratorPrototype.ref := by
      rintro rfl
      rw [hadmits.relinkable] at hclosed
      cases hclosed
    refine ⟨?_, h.prototype_eq hr hlist, fun k hk => ?_⟩
    · rw [h.extensible_eq hr, hclosed, hkeys]
      rfl
    · rwa [Object.mem_ownKeys, h.ownDescriptor_eq hr (by simp [hkeys]), ← Object.mem_ownKeys] at hk
  · have hk : k ∉ installedKeys r := fun hk => hadmits.configurable r k hk d hd hfixed
    rcases Nat.lt_or_ge r.index m.size with hr | hr
    · rw [h.ownDescriptor_eq hr hk, hd]
    · rw [Heap.object_of_size_le hr, Object.ownDescriptor_default] at hd
      cases hd
  · exact h.acyclic hm hacyclic (hadmits.apart hacyclic)

theorem admitsExtensions (h : m.Installed m') (hm : m.Live) (hkeeps : m.KeepsIntegrity m') :
    m.AdmitsExtensions := by
  refine ⟨fun r hkeys => ?_, fun r k hk d hd hfixed => ?_, ?_, fun hacyclic hchain => ?_⟩
  · obtain ⟨k, hk⟩ := List.exists_mem_of_ne_nil _ hkeys
    obtain ⟨i, rfl⟩ := exists_intrinsic_of_mem_installedKeys hk
    by_contra hclosed
    have hafter := (hkeeps.closed i.ref (Bool.of_not_eq_true hclosed)).1
    rw [h.extensible_eq (hm.intrinsic i)] at hafter
    simp [hkeys] at hafter
  · exact h.ownDescriptor_ne hm hk hd (hkeeps.fixed r k d hd hfixed)
  · by_contra hclosed
    have hafter := (hkeeps.closed _ (Bool.of_not_eq_true hclosed)).2.1
    rw [h.prototype_listIterator hm] at hafter
    have hlive := hm.referents _ ⟨m.size⟩ (.inl ⟨_, hafter.symm, rfl⟩)
    exact Nat.lt_irrefl _ hlive
  · exact h.not_acyclic hm hacyclic hchain (hkeeps.acyclic hacyclic)

end Machine.Installed

/-! ## Realms before installation -/

theorem Intrinsic.mem_all (i : Intrinsic) : i ∈ Intrinsic.all := by cases i <;> decide

/-- A new realm admits the extensions. -/
theorem admitsExtensions_initialMachine {options : Options} (h : options.withoutExtensions = true) :
    (Session.initialMachine options).AdmitsExtensions := by
  obtain ⟨withoutExtensions, printInternals⟩ := options
  cases h
  have hextensible : ∀ i ∈ Intrinsic.all,
      ((Session.initialMachine ⟨true, printInternals⟩).heap.object i.ref).extensible = true := by
    cases printInternals <;> decide +kernel
  have hconfigurable : ∀ i ∈ Intrinsic.all, ∀ k ∈ installedKeys i.ref,
      ((Session.initialMachine ⟨true, printInternals⟩).heap.object i.ref).ownDescriptor k =
        none := by
    cases printInternals <;> decide +kernel
  have hprototype : ((Session.initialMachine ⟨true, printInternals⟩).heap.object
      objectPrototype.ref).prototype = none := by
    cases printInternals <;> decide +kernel
  generalize Session.initialMachine ⟨true, printInternals⟩ = m at *
  refine ⟨fun r hkeys => ?_, fun r k hk d hd => ?_, hextensible _ (mem_all _), fun _ hchain => ?_⟩
  · obtain ⟨k, hk⟩ := List.exists_mem_of_ne_nil _ hkeys
    obtain ⟨i, rfl⟩ := exists_intrinsic_of_mem_installedKeys hk
    exact hextensible i (mem_all i)
  · obtain ⟨i, rfl⟩ := exists_intrinsic_of_mem_installedKeys hk
    rw [hconfigurable i (mem_all i) k hk] at hd
    cases hd
  · obtain ⟨p, hfirst, -⟩ := TransGen.head'_iff.1 hchain
    rw [hfirst.2.1] at hprototype
    cases hprototype

/-- The expression that keeps an object from getting new properties. -/
def Expr.closing (r : Ref) : Expr :=
  .operation (.access (.preventExtensions 0)) [.value (.object r)] none

theorem Expr.eq_of_refers_closing {r q : Ref} (h : refers (Expr.closing r) q) : q = r := by
  cases h with
  | operand he h =>
    rw [List.mem_singleton] at he
    subst he
    cases h with
    | value h => exact (Value.object.inj h).symm

theorem Machine.Operation.closing (m : Machine) (n : Nat) {r : Ref} (hr : r.index < m.size) :
    m.Operation (Run.final ((engine n).answer (.evaluate none (.closing r)) m)) := by
  refine .whole n _ ?_
  rintro q (⟨frame, hframe, -⟩ | hq)
  · cases hframe
  · rwa [Expr.eq_of_refers_closing hq]

/-! ## Installation on reachable machines -/

/-- **Late installation.**  On every reachable machine without the extensions, installing them
keeps the integrity of the objects exactly if the objects admit them. -/
theorem install_keepsIntegrity_iff {m : Machine} (hm : m.Reachable) (hnone : m.extensions = none) :
    m.KeepsIntegrity (Run.final (Engine.install m)) ↔ m.AdmitsExtensions := by
  have hinstalled := Machine.installed hnone hm.live.intrinsics
  exact ⟨hinstalled.admitsExtensions hm.live, hinstalled.keepsIntegrity hm.live⟩

/-- The extensions can be installed on a new realm; but if the prototype of sets takes no more
properties they are installed all the same. -/
theorem install_reopens_setPrototype :
    Machine.KeepsIntegrity (Session.initialMachine ⟨true, false⟩)
        (Run.final (Engine.install (Session.initialMachine ⟨true, false⟩))) ∧
      ∃ m : Machine, m.Reachable ∧ m.extensions = none ∧
        (m.heap.object setPrototype.ref).extensible = false ∧
        ¬ m.KeepsIntegrity (Run.final (Engine.install m)) := by
  have hstart : (Session.initialMachine ⟨true, false⟩).Reachable := ⟨_, .refl⟩
  refine ⟨?_, ?_⟩
  · refine (install_keepsIntegrity_iff hstart ?_).2 (admitsExtensions_initialMachine rfl)
    decide +kernel
  have hclosing := Machine.Operation.closing (Session.initialMachine ⟨true, false⟩) 3
    (hstart.live.intrinsic setPrototype)
  have hm : Machine.Reachable _ := ⟨_, .single hclosing⟩
  have hnone : (Run.final ((engine 3).answer (.evaluate none (.closing setPrototype.ref))
      (Session.initialMachine ⟨true, false⟩))).extensions = none := by
    decide +kernel
  have hclosed : ((Run.final ((engine 3).answer (.evaluate none (.closing setPrototype.ref))
      (Session.initialMachine ⟨true, false⟩))).heap.object setPrototype.ref).extensible =
        false := by
    decide +kernel
  refine ⟨_, hm, hnone, hclosed, fun hkeeps => ?_⟩
  have hopen := ((install_keepsIntegrity_iff hm hnone).1 hkeeps).extensible setPrototype.ref
    (by decide)
  rw [hclosed] at hopen
  cases hopen

end ObjectModel
