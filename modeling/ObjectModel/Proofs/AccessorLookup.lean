import ObjectModel.Proofs.AccessorHalves
import ObjectModel.Proofs.PrototypeWalk

/-!
# Looking up accessors along prototypes

The chain of an object starts with it, goes from each object to its prototype and stops where that
is missing or has been passed (`Heap.Walk`).  The look-up asks the objects of the chain in their
order for the property and stops at the first accessor that has the half (`Engine.Finds`).  Where no
proxy on the way has a trap for own properties, the answers are those of the heap, and asking changes
nothing (`lookup_follows_chain`).
-/

namespace ObjectModel

open Relation

/-! ## Chains -/

namespace Heap

variable {h : Heap} {seen l : List Ref} {p : Option Ref}

/-- The walk goes from each object to its prototype. -/
theorem Walk.isChain (hl : h.Walk seen p l) :
    (∀ q, l.head? = some q → p = some q) ∧ l.IsChain h.Parent := by
  induction hl with
  | done => exact ⟨fun q hq => (by cases hq), .nil⟩
  | again => exact ⟨fun q hq => (by cases hq), .nil⟩
  | @pass seen r l _ _ ih =>
    refine ⟨fun q hq => hq, ?_⟩
    cases l with
    | nil => exact .singleton r
    | cons q l => exact .cons_cons (ih.1 q rfl) ih.2

/-- The walk stops at a missing prototype or at one that it has seen. -/
theorem Walk.stops (hl : h.Walk seen p l) {next : Option Ref}
    (hnext : l.getLast?.elim p h.prototypeOf = next) :
    next = none ∨ ∃ q, next = some q ∧ (q ∈ seen ∨ q ∈ l) := by
  induction hl with
  | done => exact .inl hnext.symm
  | @again seen r hr => exact .inr ⟨r, hnext.symm, .inl hr⟩
  | @pass seen r l _ _ ih =>
    have hlast : l.getLast?.elim (h.prototypeOf r) h.prototypeOf = next := by
      rw [← hnext, List.getLast?_cons]
      cases l.getLast? <;> rfl
    rcases ih hlast with hnone | ⟨q, hq, hmem | hmem⟩
    · exact .inl hnone
    · rcases List.mem_cons.1 hmem with rfl | hmem
      · exact .inr ⟨q, hq, .inr List.mem_cons_self⟩
      · exact .inr ⟨q, hq, .inl hmem⟩
    · exact .inr ⟨q, hq, .inr (List.mem_cons_of_mem r hmem)⟩

end Heap

/-! ## Halves -/

/-- The own property is an accessor with this function for the half. -/
def Object.HasHalf (o : Object) (half : AccessorHalf) (k : Key) (f : Ref) : Prop :=
  ∃ property getter setter, o.ownDescriptor k = some (Property.toDescriptor property) ∧
    property.content = .accessor getter setter ∧
    (half = .getter ∧ getter = some f ∨ half = .setter ∧ setter = some f)

theorem Object.pick_eq_some_iff {o : Object} {half : AccessorHalf} {k : Key} {f : Ref} :
    (o.ownDescriptor k).bind half.pick = some f ↔ o.HasHalf half k f := by
  have hstored {property : Property} (hpick : half.pick property.toDescriptor = some f) :
      ∃ getter setter, property.content = .accessor getter setter ∧
        (half = .getter ∧ getter = some f ∨ half = .setter ∧ setter = some f) := by
    obtain ⟨content, enumerable, configurable⟩ := property
    cases content with
    | data v w => cases half <;> cases hpick
    | accessor getter setter =>
      refine ⟨getter, setter, rfl, ?_⟩
      cases half with
      | getter => exact .inl ⟨rfl, hpick⟩
      | setter => exact .inr ⟨rfl, hpick⟩
  constructor
  · intro hsome
    obtain ⟨d, hd, hpick⟩ := Option.bind_eq_some_iff.1 hsome
    by_cases hlength : o.isArray = true → k ≠ .length
    · rw [Object.ownDescriptor_eq hlength] at hd
      obtain ⟨property, hproperty, rfl⟩ := Option.map_eq_some_iff.1 hd
      obtain ⟨getter, setter, hcontent, hhalf⟩ := hstored hpick
      refine ⟨property, getter, setter, ?_, hcontent, hhalf⟩
      rw [Object.ownDescriptor_eq hlength, hproperty]
      rfl
    · -- the length of an array is a data property
      rw [Classical.not_imp, not_not] at hlength
      obtain ⟨harray, rfl⟩ := hlength
      cases hkind : o.kind with
      | array length writable =>
        rw [Object.ownDescriptor_length hkind] at hd
        cases hd
        cases half <;> cases hpick
      | _ => simp [Object.isArray, hkind] at harray
  · rintro ⟨⟨content, enumerable, configurable⟩, getter, setter, hown, rfl, hhalf⟩
    rw [hown]
    rcases hhalf with ⟨rfl, rfl⟩ | ⟨rfl, rfl⟩ <;> rfl

/-! ## Asking one object after the other -/

/-- The objects are asked for the property until one has an accessor with the half: what is found,
and the machine afterwards. -/
inductive Engine.Finds (eng : Engine) (half : AccessorHalf) (k : Key) :
    List Ref → Machine → Value → Machine → Prop where
  | nowhere {m : Machine} : Finds eng half k [] m .undefined m
  | here {r f : Ref} {rest : List Ref} {m m' : Machine} {d : Descriptor}
      (hown : eng.getOwnProperty r k m = .ok (some d) m') (hf : half.pick d = some f) :
      Finds eng half k (r :: rest) m (.object f) m'
  | further {r : Ref} {rest : List Ref} {m m' m'' : Machine} {own : Option Descriptor} {v : Value}
      (hown : eng.getOwnProperty r k m = .ok own m') (hnone : own.bind half.pick = none)
      (hrest : Finds eng half k rest m' v m'') : Finds eng half k (r :: rest) m v m''

namespace Engine.Finds

variable {eng : Engine} {half : AccessorHalf} {k : Key} {l : List Ref} {m m' : Machine} {v : Value}

theorem findAccessor (hfinds : eng.Finds half k l m v m') :
    eng.findAccessor half k l m = .ok v m' := by
  induction hfinds with
  | nowhere => rfl
  | here hown hf =>
    rw [Engine.findAccessor, Run.bind_ok hown]
    simp only [Option.bind_some, hf]
    rfl
  | further hown hnone _ ih =>
    rw [Engine.findAccessor, Run.bind_ok hown]
    simp only [hnone]
    exact ih

variable {own : Ref → Object}
  (hown : ∀ r ∈ l, eng.getOwnProperty r k m = .ok ((own r).ownDescriptor k) m)

include hown

/-- The first object with the half is found where all answer and change nothing. -/
theorem first {before after : List Ref} {q f : Ref} (hl : l = before ++ q :: after)
    (hbefore : ∀ r ∈ before, ∀ g, ¬ (own r).HasHalf half k g) (hq : (own q).HasHalf half k f) :
    eng.Finds half k l m (.object f) m := by
  subst hl
  induction before with
  | nil =>
    obtain ⟨d, hd, hf⟩ := Option.bind_eq_some_iff.1 (Object.pick_eq_some_iff.2 hq)
    exact .here ((hown q List.mem_cons_self).trans (hd ▸ rfl)) hf
  | cons r before ih =>
    refine .further (hown r List.mem_cons_self) ?_
      (ih (fun s hs => hbefore s (List.mem_cons_of_mem r hs))
        fun s hs => hown s (List.mem_cons_of_mem r hs))
    exact Option.eq_none_iff_forall_ne_some.2 fun g hg =>
      hbefore r List.mem_cons_self g (Object.pick_eq_some_iff.1 hg)

/-- Nothing is found if no object has the half. -/
theorem none (hnone : ∀ r ∈ l, ∀ g, ¬ (own r).HasHalf half k g) :
    eng.Finds half k l m .undefined m := by
  induction l with
  | nil => exact .nowhere
  | cons r l ih =>
    refine .further (hown r List.mem_cons_self) ?_
      (ih (fun s hs => hown s (List.mem_cons_of_mem r hs))
        fun s hs => hnone s (List.mem_cons_of_mem r hs))
    exact Option.eq_none_iff_forall_ne_some.2 fun g hg =>
      hnone r List.mem_cons_self g (Object.pick_eq_some_iff.1 hg)

end Engine.Finds

/-! ## The look-up methods -/

/-- The walk from an object that exists is not cut short. -/
theorem Machine.Attained.walk_ancestors {m : Machine} (hm : m.Attained) {o : Ref}
    (ho : o.index < m.size) : m.heap.Walk [] (some o) (m.heap.ancestors o) := by
  refine Heap.walk_ancestorsWithin (fun r q hq => hm.prototype_live hq) List.nodup_nil
    (fun q hq => by cases hq) (fun q hq => ?_) ?_
  · cases hq
    exact ho
  · rw [List.length_nil]
    omega

/-- Every object of the chain exists. -/
theorem Machine.Attained.ancestors_live {m : Machine} (hm : m.Attained) {o : Ref}
    (ho : o.index < m.size) {q : Ref} (hq : q ∈ m.heap.ancestors o) :
    ReflTransGen m.heap.Parent o q ∧ q.index < m.size := by
  obtain ⟨_, hstart, hreach⟩ := (hm.walk_ancestors ho).reaches hq
  cases hstart
  refine ⟨hreach, ?_⟩
  rcases hreach.cases_tail with rfl | ⟨_, _, hparent⟩
  · exact ho
  · exact hm.prototype_live hparent

/-- **The chain of an object, and what the look-up methods find along it.**  The chain starts with
the object, has no object twice, goes on with the prototype of each object, that of the target for a
proxy, and stops where there is none or where it would come back.  A look-up gives what asking its
objects one after the other gives.  Where no proxy on the chain or below one has a trap for own
properties, that is the function of the first object whose own property is an accessor with this half,
whatever nearer objects have, and undefined if there is none. -/
theorem lookup_follows_chain {m : Machine} (hm : m.Attained) {o : Ref} (ho : o.index < m.size) :
    ((m.heap.ancestors o).head? = some o ∧ (m.heap.ancestors o).Nodup ∧
      (m.heap.ancestors o).IsChain (fun a b => m.heap.prototypeOf a = some b) ∧
      ∀ last, (m.heap.ancestors o).getLast? = some last → m.heap.prototypeOf last = none ∨
        ∃ q ∈ m.heap.ancestors o, m.heap.prototypeOf last = some q) ∧
    ((∀ r, (m.heap.object r).isProxy = false →
        m.heap.prototypeOf r = (m.heap.object r).prototype) ∧
      ∀ p target traps, m.heap.kind p = .proxy target traps →
        m.heap.prototypeOf p = m.heap.prototypeOf target) ∧
    ∀ methods n m₀ key k, Heap.Offers m₀.heap methods →
      (engine n).toPropertyKey key m₀ = .ok k m → ∀ half,
      (∀ v m', (engine n).Finds half k (m.heap.ancestors o) m v m' →
        methods.lookUp (n + 1) o key half m₀ = .ok v m') ∧
      ((∀ q r, ReflTransGen m.heap.Parent o q → ReflTransGen m.heap.Target q r →
          m.heap.Lacks .getOwnPropertyDescriptor r) → m.size ≤ n →
        (∀ q ∈ m.heap.ancestors o, (engine n).getOwnProperty q k m =
          .ok ((m.heap.object (m.heap.root q)).ownDescriptor k) m) ∧
        (∀ before q after f, m.heap.ancestors o = before ++ q :: after →
          (∀ r ∈ before, ∀ g, ¬ (m.heap.object (m.heap.root r)).HasHalf half k g) →
          (m.heap.object (m.heap.root q)).HasHalf half k f →
          methods.lookUp (n + 1) o key half m₀ = .ok (.object f) m) ∧
        ((∀ q ∈ m.heap.ancestors o, ∀ g, ¬ (m.heap.object (m.heap.root q)).HasHalf half k g) →
          methods.lookUp (n + 1) o key half m₀ = .ok .undefined m)) := by
  have hwalk := hm.walk_ancestors ho
  refine ⟨⟨?_, hwalk.nodup.1, hwalk.isChain.2, fun last hlast => ?_⟩,
    ⟨fun r hproxy => Heap.prototypeOf_eq hproxy, fun p target traps hkind => ?_⟩,
    fun methods n m₀ key k hoffers hkey half => ?_⟩
  · rw [Heap.ancestors, Heap.ancestorsWithin]
    rfl
  · have hnext : (m.heap.ancestors o).getLast?.elim (some o) m.heap.prototypeOf =
        m.heap.prototypeOf last := by
      rw [hlast]
      rfl
    rcases hwalk.stops hnext with hnone | ⟨q, hq, hmem⟩
    · exact .inl hnone
    · exact .inr ⟨q, hmem.resolve_left List.not_mem_nil, hq⟩
  · rw [Heap.prototypeOf, hm.layered.root_target hkind]
    rfl
  · have hfound {v : Value} {m' : Machine}
        (hfinds : (engine n).Finds half k (m.heap.ancestors o) m v m') :
        methods.lookUp (n + 1) o key half m₀ = .ok v m' :=
      (lookUp_apply hoffers hkey).trans hfinds.findAccessor
    refine ⟨fun v m' => hfound, fun hlacks hn => ?_⟩
    have hown : ∀ q ∈ m.heap.ancestors o, (engine n).getOwnProperty q k m =
        .ok ((m.heap.object (m.heap.root q)).ownDescriptor k) m := by
      intro q hq
      obtain ⟨hreach, hlive⟩ := hm.ancestors_live ho hq
      exact (hm.layered.reads_getOwnProperty hlive (fun r => hlacks q r hreach) n k).ok hn
    exact ⟨hown, fun before q after f hl hbefore hq => hfound (.first hown hl hbefore hq),
      fun hnone => hfound (.none hown hnone)⟩

/-! ### A chain that loops through a proxy with another trap -/

/-- An object with a value inherits from one with a setter, which inherits from one with a getter.
The prototype of the last is a proxy of itself with a trap for reading. -/
def Expr.accessorChain : Expr :=
  .operation (.control (.sequence [0, 1, 2, 3, 4, 5, 6]))
    [.operation (.create (.probe 0 [])) [.value .null] (some "f"),
      .operation (.create (.probe 0 [])) [.value .null] (some "g"),
      .operation (.create (.populated 0 [(1, ⟨none, none, some 2, none, none, none⟩)] none false))
        [.value .null, .value (.text "x"), .name "f"] (some "a"),
      .operation (.extend (.proxy 0 [("get", 1)])) [.name "a", .name "f"] (some "p"),
      .operation (.access (.setPrototypeOf 0 1)) [.name "a", .name "p"] none,
      .operation (.create (.populated 0 [(1, ⟨none, none, none, some 2, none, none⟩)] none false))
        [.name "a", .value (.text "x"), .name "g"] (some "b"),
      .operation (.create (.object (some 0) [(1, 2)]))
        [.name "b", .value (.text "x"), .value .null] (some "c")]
    none

def Machine.accessorChain : Machine :=
  Run.final ((engine 9).answer (.evaluate none .accessorChain)
    (Session.initialMachine ⟨false, false⟩))

theorem Machine.attained_accessorChain : Machine.accessorChain.Attained := by
  refine .evaluate 9 (fun r => ?_) (.initial _)
  simp [Expr.accessorChain]

/-- Objects whose prototypes and targets are among them, and where no proxy has the trap. -/
theorem Heap.lacks_of_closed {h : Heap} {l : List Ref} {trap : Trap}
    (hclosed : ∀ r ∈ l, (h.prototypeOf r).all l.contains = true ∧
      (h.kind r).forwards?.all (fun p => l.contains p.1 && !p.2.contains trap) = true)
    {o q r : Ref} (ho : o ∈ l) (hq : ReflTransGen h.Parent o q) (hr : ReflTransGen h.Target q r) :
    h.Lacks trap r := by
  have hforwards {p target : Ref} {traps : TrapTable} (hp : p ∈ l)
      (hkind : h.kind p = .proxy target traps) : target ∈ l ∧ trap ∉ traps.traps := by
    have hall := (hclosed p hp).2
    rw [hkind] at hall
    simpa [Kind.forwards?] using hall
  have hchain : q ∈ l := by
    clear hr
    induction hq with
    | refl => exact ho
    | @tail p q _ hparent ih =>
      have hall := (hclosed p ih).1
      rw [show h.prototypeOf p = some q from hparent] at hall
      simpa using hall
  have hmem : r ∈ l := by
    induction hr with
    | refl => exact hchain
    | tail _ htarget ih => exact (hforwards ih htarget.choose_spec).1
  intro target traps hkind
  refine Bool.eq_false_iff.2 fun hhas => (hforwards hmem hkind).2 (List.mem_filter.2 ⟨?_, hhas⟩)
  cases trap <;> decide

/-- From the lowest object the getter is found behind a value and a setter without a getter, the
setter behind the value, and for another key nothing. -/
theorem lookup_follows_chain_accessorChain :
    Machine.accessorChain.Attained ∧ Machine.accessorChain.heap.Offers .ofRealm ∧
    Machine.accessorChain.heap.ancestors ⟨79⟩ = [⟨79⟩, ⟨78⟩, ⟨76⟩, ⟨77⟩] ∧
    (∀ q r, ReflTransGen Machine.accessorChain.heap.Parent ⟨79⟩ q →
      ReflTransGen Machine.accessorChain.heap.Target q r →
      Machine.accessorChain.heap.Lacks .getOwnPropertyDescriptor r) ∧
    AccessorMethods.ofRealm.lookUp 81 ⟨79⟩ (.text "x") .getter Machine.accessorChain =
      .ok (.object ⟨74⟩) Machine.accessorChain ∧
    AccessorMethods.ofRealm.lookUp 81 ⟨79⟩ (.text "x") .setter Machine.accessorChain =
      .ok (.object ⟨75⟩) Machine.accessorChain ∧
    AccessorMethods.ofRealm.lookUp 81 ⟨79⟩ (.text "y") .getter Machine.accessorChain =
      .ok .undefined Machine.accessorChain := by
  have hdecided : Machine.accessorChain.heap.objects.size = 80 ∧
      Machine.accessorChain.heap.ancestors ⟨79⟩ = [⟨79⟩, ⟨78⟩, ⟨76⟩, ⟨77⟩] ∧
      (∀ r ∈ [⟨79⟩, ⟨78⟩, ⟨76⟩, ⟨77⟩],
        (Machine.accessorChain.heap.prototypeOf r).all [⟨79⟩, ⟨78⟩, ⟨76⟩, ⟨77⟩].contains = true ∧
        (Machine.accessorChain.heap.kind r).forwards?.all (fun p =>
          [⟨79⟩, ⟨78⟩, ⟨76⟩, ⟨77⟩].contains p.1 && !p.2.contains .getOwnPropertyDescriptor) = true) ∧
      ((Machine.accessorChain.heap.object (Machine.accessorChain.heap.root ⟨79⟩)).ownDescriptor
          "x" = some (Property.data .null true true true).toDescriptor ∧
        (Machine.accessorChain.heap.object (Machine.accessorChain.heap.root ⟨78⟩)).ownDescriptor
          "x" = some (Property.mk (.accessor none (some ⟨75⟩)) false false).toDescriptor ∧
        (Machine.accessorChain.heap.object (Machine.accessorChain.heap.root ⟨76⟩)).ownDescriptor
          "x" = some (Property.mk (.accessor (some ⟨74⟩) none) false false).toDescriptor ∧
        ∀ r ∈ Machine.accessorChain.heap.ancestors ⟨79⟩,
          (Machine.accessorChain.heap.object (Machine.accessorChain.heap.root r)).ownDescriptor
            "y" = none) ∧
      (∀ half ∈ [AccessorHalf.getter, AccessorHalf.setter],
        Machine.accessorChain.heap.native? (.object (AccessorMethods.ofRealm.define half)) =
          some (.defineAccessor half) ∧
        Machine.accessorChain.heap.native? (.object (AccessorMethods.ofRealm.lookup half)) =
          some (.lookupAccessor half)) := by decide +kernel
  have hm := Machine.attained_accessorChain
  -- from here on the machine is not evaluated any more
  generalize Machine.accessorChain = m at *
  obtain ⟨hsize, hancestors, hclosed, ⟨hvalue, hsetter, hgetter, hother⟩, hmethods⟩ := hdecided
  have hlive : (⟨79⟩ : Ref).index < m.size := by
    show 79 < m.heap.objects.size
    omega
  have hoffers : m.heap.Offers .ofRealm :=
    ⟨fun half => (hmethods half (by cases half <;> decide)).1,
      fun half => (hmethods half (by cases half <;> decide)).2⟩
  have hlacks : ∀ q r, ReflTransGen m.heap.Parent ⟨79⟩ q → ReflTransGen m.heap.Target q r →
      m.heap.Lacks .getOwnPropertyDescriptor r :=
    fun q r => Heap.lacks_of_closed hclosed List.mem_cons_self
  obtain ⟨-, -, hlookup⟩ := lookup_follows_chain hm hlive
  have hkey (t : String) :
      (engine 80).toPropertyKey (.text (Text.ofString t)) m = .ok (Key.ofString t) m := rfl
  refine ⟨hm, hoffers, hancestors, hlacks, ?_, ?_, ?_⟩
  · refine ((hlookup .ofRealm 80 m _ _ hoffers (hkey "x") .getter).2 hlacks
      (Nat.le_of_eq hsize)).2.1 [⟨79⟩, ⟨78⟩] ⟨76⟩ [⟨77⟩] ⟨74⟩ hancestors (fun r hr g hg => ?_)
      ⟨_, _, _, hgetter, rfl, .inl ⟨rfl, rfl⟩⟩
    have hpick := Object.pick_eq_some_iff.2 hg
    rcases List.mem_pair.1 hr with rfl | rfl
    · rw [hvalue] at hpick
      cases hpick
    · rw [hsetter] at hpick
      cases hpick
  · refine ((hlookup .ofRealm 80 m _ _ hoffers (hkey "x") .setter).2 hlacks
      (Nat.le_of_eq hsize)).2.1 [⟨79⟩] ⟨78⟩ [⟨76⟩, ⟨77⟩] ⟨75⟩ hancestors (fun r hr g hg => ?_)
      ⟨_, _, _, hsetter, rfl, .inr ⟨rfl, rfl⟩⟩
    have hpick := Object.pick_eq_some_iff.2 hg
    rw [List.mem_singleton.1 hr, hvalue] at hpick
    cases hpick
  · refine ((hlookup .ofRealm 80 m _ _ hoffers (hkey "y") .getter).2 hlacks
      (Nat.le_of_eq hsize)).2.2 fun r hr g hg => ?_
    obtain ⟨_, _, _, hown, -⟩ := hg
    cases (hother r hr).symm.trans hown

end ObjectModel
