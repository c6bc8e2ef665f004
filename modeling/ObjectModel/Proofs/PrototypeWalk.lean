import ObjectModel.Proofs.TableHistory
import ObjectModel.Proofs.Termination

/-!
# Walks along prototypes through proxies

Two walks go from an object up its prototypes: the look-up of an accessor and the enumeration of
keys.  Through a proxy without traps they go on with the prototype of its target, so a chain can come
back to an object that it has passed.  The look-up remembers the objects and stops there
(`Heap.Walk`).  The enumeration remembers only the keys: it ends if and only if the chain does
(`enumeration_ends_unless_revisited`).
-/

namespace ObjectModel

open Relation

/-! ## Chains through proxies -/

namespace Heap

/-- The object is no proxy, or a proxy without traps. -/
def Plain (h : Heap) (r : Ref) : Prop :=
  ∀ target traps, h.kind r = .proxy target traps → ∀ trap, traps.has trap = false

/-- The object is no proxy, or a proxy without this trap. -/
def Lacks (h : Heap) (trap : Trap) (r : Ref) : Prop :=
  ∀ target traps, h.kind r = .proxy target traps → traps.has trap = false

theorem Plain.lacks {h : Heap} {r : Ref} (hr : h.Plain r) (trap : Trap) : h.Lacks trap r :=
  fun target traps hkind => hr target traps hkind trap

/-- The second object follows the first on a chain. -/
def Parent (h : Heap) (a b : Ref) : Prop := h.prototypeOf a = some b

/-- The second object follows the first or is its target. -/
def Asks (h : Heap) (a b : Ref) : Prop := h.Parent a b ∨ h.Target a b

/-- The chain from the object comes to an object twice. -/
def Revisits (h : Heap) (r : Ref) : Prop := ∃ q, ReflTransGen h.Parent r q ∧ TransGen h.Parent q q

/-- The walk along a chain that stops at its end or at an object it has seen, with the objects it
passes. -/
inductive Walk (h : Heap) : List Ref → Option Ref → List Ref → Prop where
  | done {seen : List Ref} : Walk h seen none []
  | again {seen : List Ref} {r : Ref} (hr : r ∈ seen) : Walk h seen (some r) []
  | pass {seen : List Ref} {r : Ref} {l : List Ref} (hr : r ∉ seen)
      (hl : Walk h (r :: seen) (h.prototypeOf r) l) : Walk h seen (some r) (r :: l)

/-- A chain that ends. -/
inductive Climb (h : Heap) : Option Ref → List Ref → Prop where
  | done : Climb h none []
  | link {r : Ref} {l : List Ref} (hl : Climb h (h.prototypeOf r) l) : Climb h (some r) (r :: l)

variable {h : Heap} {o r : Ref} {l : List Ref}

/-- Distinct objects are no more than there are. -/
theorem length_le_size {seen : List Ref} (hnodup : seen.Nodup)
    (hlive : ∀ q ∈ seen, q.index < h.objects.size) : seen.length ≤ h.objects.size := by
  have hindexes : (seen.map Ref.index).Nodup := by
    refine hnodup.map fun a b hab => ?_
    cases a
    cases b
    cases hab
    rfl
  have hsubset : seen.map Ref.index ⊆ List.range h.objects.size := by
    intro i hi
    obtain ⟨q, hq, rfl⟩ := List.mem_map.1 hi
    exact List.mem_range.2 (hlive q hq)
  simpa using (hindexes.subperm hsubset).length_le

/-- The walk is not cut short: it has a step for every object. -/
theorem walk_ancestorsWithin
    (hprototypes : ∀ r q, h.prototypeOf r = some q → q.index < h.objects.size)
    {fuel : Nat} {seen : List Ref} {p : Option Ref} (hnodup : seen.Nodup)
    (hseen : ∀ q ∈ seen, q.index < h.objects.size) (hp : ∀ q, p = some q → q.index < h.objects.size)
    (hfuel : h.objects.size < seen.length + fuel) :
    h.Walk seen p (h.ancestorsWithin fuel seen p) := by
  induction fuel generalizing seen p with
  | zero =>
    have hle := length_le_size hnodup hseen
    omega
  | succ fuel ih =>
    cases p with
    | none => exact .done
    | some r =>
      rw [ancestorsWithin]
      by_cases hr : r ∈ seen
      · rw [if_pos (List.contains_iff_mem.2 hr)]
        exact .again hr
      · rw [if_neg fun hmem => hr (List.contains_iff_mem.1 hmem)]
        refine .pass hr (ih (List.nodup_cons.2 ⟨hr, hnodup⟩) (fun q hq => ?_) (hprototypes r) ?_)
        · rcases List.mem_cons.1 hq with rfl | hq
          · exact hp q rfl
          · exact hseen q hq
        · rw [List.length_cons]
          omega

/-- The walk meets objects of the chain only. -/
theorem Walk.reaches {seen : List Ref} {p : Option Ref} (hl : h.Walk seen p l) {q : Ref}
    (hq : q ∈ l) : ∃ r, p = some r ∧ ReflTransGen h.Parent r q := by
  induction hl with
  | done => cases hq
  | again => cases hq
  | @pass seen r l _ _ ih =>
    rcases List.mem_cons.1 hq with rfl | hq
    · exact ⟨q, rfl, .refl⟩
    · obtain ⟨parent, hparent, hreach⟩ := ih hq
      exact ⟨r, rfl, .head hparent hreach⟩

/-- The walk meets no object twice. -/
theorem Walk.nodup {seen : List Ref} {p : Option Ref} (hl : h.Walk seen p l) :
    l.Nodup ∧ ∀ q ∈ l, q ∉ seen := by
  induction hl with
  | done => exact ⟨List.nodup_nil, fun q hq => by cases hq⟩
  | again => exact ⟨List.nodup_nil, fun q hq => by cases hq⟩
  | @pass seen r l hr _ ih =>
    obtain ⟨hnodup, hnew⟩ := ih
    refine ⟨List.nodup_cons.2 ⟨fun hmem => hnew r hmem List.mem_cons_self, hnodup⟩, ?_⟩
    intro q hq
    rcases List.mem_cons.1 hq with rfl | hq
    · exact hr
    · exact fun hseen => hnew q hq (List.mem_cons_of_mem r hseen)

/-- Where nothing is met twice the walk goes to the end. -/
theorem Walk.climb {seen : List Ref} {p : Option Ref} (hl : h.Walk seen p l)
    (hbelow : ∀ q ∈ seen, ∀ r, p = some r → TransGen h.Parent q r)
    (hfree : ∀ r, p = some r → ¬ h.Revisits r) : h.Climb p l := by
  induction hl with
  | done => exact .done
  | @again seen r hr => exact absurd ⟨r, .refl, hbelow r hr r rfl⟩ (hfree r rfl)
  | @pass seen r l _ _ ih =>
    refine .link (ih (fun q hq parent hparent => ?_) fun parent hparent hrevisits => ?_)
    · rcases List.mem_cons.1 hq with rfl | hq
      · exact .single hparent
      · exact .tail (hbelow q hq r rfl) hparent
    · obtain ⟨q, hreach, hcycle⟩ := hrevisits
      exact hfree r rfl ⟨q, .head hparent hreach, hcycle⟩

/-- A chain that comes back goes on, and still comes back. -/
theorem Revisits.parent (hrevisits : h.Revisits r) :
    ∃ parent, h.prototypeOf r = some parent ∧ h.Revisits parent := by
  obtain ⟨q, hreach, hcycle⟩ := hrevisits
  rcases hreach.cases_head with rfl | ⟨parent, hparent, hrest⟩
  · obtain ⟨parent, hparent, hrest⟩ := TransGen.head'_iff.1 hcycle
    exact ⟨parent, hparent, r, hrest, hcycle⟩
  · exact ⟨parent, hparent, q, hrest, hcycle⟩

end Heap

/-! ## Reading through proxies -/

/-- The run gives a value and leaves the machine as it is, unless its fuel is less than there are
objects and runs out. -/
def Run.Reads {α : Type} (n : Nat) (m : Machine) (x : Run α) (a : α) : Prop :=
  x m = .ok a m ∨ x m = .error .outOfFuel m ∧ n < m.size

namespace Run.Reads

variable {α β : Type} {n : Nat} {m : Machine} {x : Run α} {a : α}

theorem of_ok (h : x m = .ok a m) : Reads n m x a := .inl h

protected theorem bind {f : α → Run β} {b : β} (hx : Reads n m x a) (hf : Reads n m (f a) b) :
    Reads n m (x >>= f) b := by
  rcases hx with hx | ⟨hx, hn⟩
  · unfold Reads
    rw [Run.bind_ok hx]
    exact hf
  · exact .inr ⟨Run.bind_error hx, hn⟩

/-- With fuel for every object the value is given. -/
theorem ok (h : Reads n m x a) (hn : m.size ≤ n) : x m = .ok a m :=
  h.resolve_right fun hshort => absurd hshort.2 (Nat.not_lt.2 hn)

/-- What fails afterwards fails. -/
theorem bind_outOfFuel {f : α → Run β} (hx : Reads n m x a)
    (hf : f a m = .error .outOfFuel m) : (x >>= f) m = .error .outOfFuel m := by
  rcases hx with hx | ⟨hx, -⟩
  · rw [Run.bind_ok hx, hf]
  · exact Run.bind_error hx

end Run.Reads

namespace Heap

/-- The own property that an object shows, a proxy that of the object under it. -/
def shown (h : Heap) (r : Ref) (k : Key) : Option Descriptor :=
  (h.object (h.root r)).ownDescriptor k

def shownKeys (h : Heap) (r : Ref) : List Key := (h.object (h.root r)).ownKeys

/-- Traps that are all missing are a table without their functions. -/
theorem Plain.lookup {h : Heap} {r target : Ref} {traps : TrapTable} (hr : h.Plain r)
    (hkind : h.kind r = .proxy target traps) :
    ∃ table, traps = .functions table ∧ ∀ trap, table.lookup trap = none := by
  have hnone := hr target traps hkind
  cases traps with
  | functions table => exact ⟨table, rfl, fun trap => by simpa [TrapTable.has] using hnone trap⟩
  | adapted handler callTraps => exact absurd (hnone .get) (by simp [TrapTable.has])
  | enumeratesTarget => exact absurd (hnone .enumerate) (by decide)

end Heap

namespace Machine.Layered

variable {m : Machine} (h : m.Layered) {r : Ref}

include h

/-- A method that proxies without its trap forward is answered by the object under them.  Each proxy
on the way takes one unit of fuel, and there are no more than older objects. -/
theorem reads_forwarded {α : Type} {x : Nat → Ref → Run α} {f : Object → α} {trap : Trap}
    (hnone : ∀ r, x 0 r m = .error .outOfFuel m)
    (hown : ∀ n r, (m.heap.object r).isProxy = false → x (n + 1) r m = .ok (f (m.heap.object r)) m)
    (hforward : ∀ n r target traps, m.heap.kind r = .proxy target traps → traps.has trap = false →
      x (n + 1) r m = x n target m)
    (hr : r.index < m.size) (hlacks : ∀ q, ReflTransGen m.heap.Target r q → m.heap.Lacks trap q)
    (n : Nat) : Run.Reads n m (x n r) (f (m.heap.object (m.heap.root r))) := by
  suffices hsuff : x n r m = .ok (f (m.heap.object (m.heap.root r))) m ∨
      x n r m = .error .outOfFuel m ∧ n ≤ r.index from
    hsuff.imp_right fun hshort => ⟨hshort.1, Nat.lt_of_le_of_lt hshort.2 hr⟩
  clear hr
  induction n generalizing r with
  | zero => exact .inr ⟨hnone r, Nat.zero_le _⟩
  | succ n ih =>
    cases hkind : m.heap.kind r with
    | proxy target traps =>
      have hlt := h.targets r target traps hkind
      rw [hforward n r target traps hkind (hlacks r .refl target traps hkind), h.root_target hkind]
      refine (ih fun q hq => hlacks q (.head ⟨_, hkind⟩ hq)).imp_right fun hshort => ?_
      exact ⟨hshort.1, by omega⟩
    | _ =>
      have hkind : (m.heap.object r).kind = _ := hkind
      have hproxy : (m.heap.object r).isProxy = false := by simp [Object.isProxy, hkind]
      rw [Heap.root_eq_self hproxy]
      exact .inl (hown n r hproxy)

/-- **A proxy without a trap for it shows the own properties of the object under it.** -/
theorem reads_getOwnProperty (hr : r.index < m.size)
    (hlacks : ∀ q, ReflTransGen m.heap.Target r q → m.heap.Lacks .getOwnPropertyDescriptor q)
    (n : Nat) (k : Key) :
    Run.Reads n m ((engine n).getOwnProperty r k) (m.heap.shown r k) := by
  refine h.reads_forwarded (x := fun n r => (engine n).getOwnProperty r k)
    (f := fun o => o.ownDescriptor k) (fun r => rfl) (fun n r hproxy => ?_)
    (fun n r target traps hkind hnone => ?_) hr hlacks n
  · rw [← hostedEngine_none]
    exact hosted_getOwnProperty hproxy
  · refine (Run.kind_bind_of_proxy hkind _ _).trans ?_
    cases traps with
    | functions table =>
      have hlookup : table.lookup .getOwnPropertyDescriptor = none := by
        simpa [TrapTable.has] using hnone
      simp only [Engine.proxyGetOwn, hlookup]
    | adapted handler callTraps => cases hnone
    | enumeratesTarget => rfl

variable (hr : r.index < m.size) (hplain : ∀ q, ReflTransGen m.heap.Target r q → m.heap.Plain q)
  (n : Nat)

include hr hplain

theorem reads_ownKeys : Run.Reads n m ((engine n).ownKeys r) (m.heap.shownKeys r) := by
  have hlacks (q : Ref) (hq : ReflTransGen m.heap.Target r q) : m.heap.Lacks .ownKeys q :=
    (hplain q hq).lacks _
  refine h.reads_forwarded (x := fun n r => (engine n).ownKeys r) (f := fun o => o.ownKeys)
    (fun r => rfl) (fun n r hproxy => ?_)
    (fun n r target traps hkind hnone => ?_) hr hlacks n
  · rw [← hostedEngine_none]
    exact hosted_ownKeys hproxy
  · refine (Run.kind_bind_of_proxy hkind _ _).trans ?_
    cases traps with
    | functions table =>
      have hlookup : table.lookup .ownKeys = none := by simpa [TrapTable.has] using hnone
      simp only [Engine.proxyOwnKeys, hlookup]
    | adapted handler callTraps => cases hnone
    | enumeratesTarget => rfl

theorem reads_isOwnEnumerable (k : Key) :
    Run.Reads n m ((engine n).isOwnEnumerable r k)
      ((m.heap.shown r k).any Descriptor.isEnumerable) :=
  (h.reads_getOwnProperty hr (fun q hq => (hplain q hq).lacks _) n k).bind (.of_ok rfl)

/-- **Of the keys of an object those are kept that are enumerable and not visited before, and all
are visited afterwards.** -/
theorem reads_enumerateKeys {ks : List Key} (hks : ks.Nodup) (visited : Std.TreeSet Key) :
    ∃ visited' : Std.TreeSet Key, Run.Reads n m ((engine n).enumerateKeys r ks visited)
        (ks.filter fun k => !k.isSymbol && !visited.contains k &&
          (m.heap.shown r k).any Descriptor.isEnumerable, visited') ∧
      ∀ k, visited'.contains k = (visited.contains k || !k.isSymbol && ks.contains k) := by
  induction ks generalizing visited with
  | nil => exact ⟨visited, .of_ok rfl, fun k => by simp⟩
  | cons k rest ih =>
    obtain ⟨hk, hrest⟩ := List.nodup_cons.1 hks
    by_cases hskip : (k.isSymbol || visited.contains k) = true
    · obtain ⟨visited', hreads, hvisited⟩ := ih hrest visited
      refine ⟨visited', ?_, fun k' => ?_⟩
      · rw [Engine.enumerateKeys, if_pos hskip, List.filter_cons_of_neg]
        · exact hreads
        · rcases Bool.or_eq_true _ _ ▸ hskip with hsymbol | hseen
          · simp [hsymbol]
          · simp [hseen]
      · rw [hvisited, List.contains_cons]
        by_cases heq : k' = k
        · subst heq
          rcases Bool.or_eq_true _ _ ▸ hskip with hsymbol | hseen
          · simp [hsymbol]
          · simp [hseen]
        · rw [beq_false_of_ne heq, Bool.false_or]
    · obtain ⟨visited', hreads, hvisited⟩ := ih hrest (visited.insert k)
      rw [Bool.not_eq_true, Bool.or_eq_false_iff] at hskip
      have hinsert (k' : Key) :
          (visited.insert k).contains k' = (k' == k || visited.contains k') := by
        rw [Std.TreeSet.contains_insert]
        congr 1
        rw [Bool.eq_iff_iff, beq_iff_eq, beq_iff_eq, Std.compare_eq_iff_eq, eq_comm]
      refine ⟨visited', ?_, fun k' => ?_⟩
      · rw [Engine.enumerateKeys, if_neg (by simp [hskip])]
        refine (h.reads_isOwnEnumerable hr hplain n k).bind (hreads.bind (.of_ok ?_))
        have hfilter : (rest.filter fun k' => !k'.isSymbol && !(visited.insert k).contains k' &&
            (m.heap.shown r k').any Descriptor.isEnumerable) =
            rest.filter fun k' => !k'.isSymbol && !visited.contains k' &&
              (m.heap.shown r k').any Descriptor.isEnumerable := by
          refine List.filter_congr fun k' hk' => ?_
          have hne : k' ≠ k := fun heq => hk (heq ▸ hk')
          rw [hinsert, beq_false_of_ne hne, Bool.false_or]
        show EStateM.Result.ok (if (m.heap.shown r k).any Descriptor.isEnumerable then k :: _ else _,
          visited') m = _
        rw [hfilter, List.filter_cons, hskip.1, hskip.2]
        rfl
      · rw [hvisited, hinsert, List.contains_cons]
        by_cases heq : k' = k
        · subst heq
          simp [hskip.1]
        · rw [beq_false_of_ne heq, Bool.false_or, Bool.false_or]

end Machine.Layered

/-! ## Own keys are distinct -/

theorem PropertyTable.nodup_ordered (t : PropertyTable) : t.keys.Nodup := by
  have hindexes : ((t.indexes.mergeSort (· ≤ ·)).map Key.index).Nodup := by
    refine ((List.mergeSort_perm _ _).nodup_iff.2 nodup_indexes).map fun i j hij => ?_
    cases hij
    rfl
  have hrank : ∀ k ∈ (t.indexes.mergeSort (· ≤ ·)).map Key.index, k.rank = 0 := by
    intro k hk
    obtain ⟨i, -, rfl⟩ := List.mem_map.1 hk
    rfl
  rw [keys, List.append_assoc, List.nodup_append, List.nodup_append]
  refine ⟨hindexes, ⟨t.nodup_keys.filter _, t.nodup_keys.filter _, ?_⟩, ?_⟩
  · intro j hj k hk heq
    have hsame := congrArg Key.rank heq
    rw [rank_of_mem_names hj, rank_of_mem_symbols hk] at hsame
    cases hsame
  · intro j hj k hk heq
    have hsame := congrArg Key.rank heq
    rw [hrank j hj] at hsame
    rcases List.mem_append.1 hk with hk | hk
    · rw [rank_of_mem_names hk] at hsame
      cases hsame
    · rw [rank_of_mem_symbols hk] at hsame
      cases hsame

theorem Object.Regular.nodup_ownKeys {o : Object} (h : o.Regular) : o.ownKeys.Nodup := by
  have hkeys := o.properties.nodup_ordered
  unfold ownKeys
  split
  · next length writable hkind =>
    have habsent : Key.length ∉ o.properties.keys := by
      rw [PropertyTable.mem_keys, (h length writable hkind).1]
      decide
    rw [insertLength, List.nodup_middle, List.takeWhile_append_dropWhile, List.nodup_cons]
    exact ⟨habsent, hkeys⟩
  · exact hkeys

/-! ## Enumerating along a chain -/

/-- The keys that an enumeration along objects gives: of each the enumerable ones that no object
`passed` before has, symbols apart. -/
def Heap.visibleKeys (h : Heap) (passed : List Ref) : List Ref → List Key
  | [] => []
  | r :: rest =>
    ((h.shownKeys r).filter fun k => !k.isSymbol && !passed.any (fun q => (h.shown q k).isSome) &&
      (h.shown r k).any Descriptor.isEnumerable) ++ h.visibleKeys (r :: passed) rest

/-- The objects that a walk from here asks are live, and proxies among them have no traps. -/
structure Machine.Open (m : Machine) (r : Ref) : Prop where
  live : r.index < m.size
  plain : ∀ q, ReflTransGen m.heap.Asks r q → m.heap.Plain q

section Enumerating

variable {m : Machine} {r : Ref} {n : Nat}

theorem Machine.Open.targets (hr : m.Open r) (q : Ref) (hq : ReflTransGen m.heap.Target r q) :
    m.heap.Plain q :=
  hr.plain q (hq.lift id fun _ _ => .inr)

theorem Machine.Open.parent (hm : m.Attained) (hr : m.Open r) {parent : Ref}
    (hparent : m.heap.prototypeOf r = some parent) : m.Open parent :=
  ⟨hm.prototype_live hparent, fun q hq => hr.plain q (.head (.inl hparent) hq)⟩

theorem Machine.Open.of_reaches (hm : m.Attained) (hr : m.Open r) {q : Ref}
    (hq : ReflTransGen m.heap.Parent r q) : m.Open q := by
  induction hq with
  | refl => exact hr
  | tail _ hparent ih => exact ih.parent hm hparent

/-- The enumeration step by step. -/
theorem enumerateChain_succ (eng : Engine) (fuel : Nat) (r : Ref) (visited : Std.TreeSet Key) :
    eng.enumerateChain (fuel + 1) (some r) visited =
      (eng.ownKeys r >>= fun own => eng.enumerateKeys r own visited) >>= fun step =>
        Run.heap >>= fun heap => eng.enumerateChain fuel (heap.prototypeOf r) step.2 >>= fun rest =>
          pure (step.1 ++ rest) := by
  rw [bind_assoc]
  rfl

/-- One object of a chain. -/
theorem reads_enumerateObject (hm : m.Attained) (hr : m.Open r) {passed : List Ref}
    {visited : Std.TreeSet Key}
    (hvisited : ∀ k, visited.contains k =
      (!k.isSymbol && passed.any fun q => (m.heap.shown q k).isSome)) :
    ∃ visited' : Std.TreeSet Key,
      Run.Reads n m ((engine n).ownKeys r >>= fun own => (engine n).enumerateKeys r own visited)
        ((m.heap.shownKeys r).filter fun k => !k.isSymbol &&
          !passed.any (fun q => (m.heap.shown q k).isSome) &&
          (m.heap.shown r k).any Descriptor.isEnumerable, visited') ∧
      ∀ k, visited'.contains k =
        (!k.isSymbol && (r :: passed).any fun q => (m.heap.shown q k).isSome) := by
  have hnodup : (m.heap.shownKeys r).Nodup := (hm.regular.objects _).nodup_ownKeys
  obtain ⟨visited', hreads, hcontains⟩ :=
    hm.layered.reads_enumerateKeys hr.live hr.targets n hnodup visited
  have hfilter : ((m.heap.shownKeys r).filter fun k => !k.isSymbol && !visited.contains k &&
      (m.heap.shown r k).any Descriptor.isEnumerable) =
      (m.heap.shownKeys r).filter fun k => !k.isSymbol &&
        !passed.any (fun q => (m.heap.shown q k).isSome) &&
        (m.heap.shown r k).any Descriptor.isEnumerable := by
    refine List.filter_congr fun k _ => ?_
    rw [hvisited]
    cases k.isSymbol <;> rfl
  rw [hfilter] at hreads
  refine ⟨visited', (hm.layered.reads_ownKeys hr.live hr.targets n).bind hreads, fun k => ?_⟩
  have howned : (m.heap.shownKeys r).contains k = (m.heap.shown r k).isSome := by
    rw [Bool.eq_iff_iff, List.contains_iff_mem]
    exact Object.mem_ownKeys
  rw [hcontains, hvisited, howned, List.any_cons]
  cases k.isSymbol <;> simp [Bool.or_comm]

/-- **Along a chain that ends the visible keys are given.** -/
theorem reads_enumerateChain (hm : m.Attained) {p : Option Ref} {l : List Ref}
    (hl : m.heap.Climb p l) (hp : ∀ r, p = some r → m.Open r) {fuel : Nat}
    (hfuel : l.length ≤ fuel) {passed : List Ref} {visited : Std.TreeSet Key}
    (hvisited : ∀ k, visited.contains k =
      (!k.isSymbol && passed.any fun q => (m.heap.shown q k).isSome)) :
    Run.Reads n m ((engine n).enumerateChain fuel p visited) (m.heap.visibleKeys passed l) := by
  induction hl generalizing fuel passed visited with
  | done => cases fuel <;> exact .of_ok rfl
  | @link r l hl ih =>
    cases fuel with
    | zero => exact absurd hfuel (Nat.not_succ_le_zero _)
    | succ fuel =>
      have hr := hp r rfl
      obtain ⟨visited', hreads, hcontains⟩ := reads_enumerateObject (n := n) hm hr hvisited
      have hrest := ih (fun parent hparent => hr.parent hm hparent) (Nat.le_of_succ_le_succ hfuel)
        hcontains
      have hheap : Run.Reads n m Run.heap m.heap := .of_ok rfl
      rw [enumerateChain_succ]
      exact hreads.bind (hheap.bind (hrest.bind (.of_ok rfl)))

/-- **Along a chain that comes back any fuel runs out.** -/
theorem enumerateChain_outOfFuel (hm : m.Attained) (hr : m.Open r) (hrevisits : m.heap.Revisits r)
    (fuel : Nat) {passed : List Ref} {visited : Std.TreeSet Key}
    (hvisited : ∀ k, visited.contains k =
      (!k.isSymbol && passed.any fun q => (m.heap.shown q k).isSome)) :
    (engine n).enumerateChain fuel (some r) visited m = .error .outOfFuel m := by
  induction fuel generalizing r passed visited with
  | zero => rfl
  | succ fuel ih =>
    obtain ⟨parent, hparent, hagain⟩ := hrevisits.parent
    obtain ⟨visited', hreads, hcontains⟩ := reads_enumerateObject (n := n) hm hr hvisited
    have hheap : Run.Reads n m Run.heap m.heap := .of_ok rfl
    have hrest := ih (hr.parent hm hparent) hagain hcontains
    rw [enumerateChain_succ]
    refine hreads.bind_outOfFuel (hheap.bind_outOfFuel ?_)
    rw [hparent]
    exact Run.bind_error hrest

theorem limit_engine (n : Nat) : (engine n).limit = n := by
  cases n <;> rfl

/-- An object without an `enumerate` trap is enumerated along its chain. -/
theorem enumerate_eq (hr : m.Open r) :
    (engine n).enumerate r m =
      ((engine n).enumerateChain n (some r) ∅ >>= fun names =>
        Engine.newIterator (.list (names.map Key.toValue).toArray)) m := by
  have hnone : (engine n).proxyEnumerate? r m = .ok none m := by
    unfold Engine.proxyEnumerate?
    rw [Run.bind_apply]
    simp only [Run.kind]
    cases hkind : m.heap.kind r with
    | proxy target traps =>
      obtain ⟨table, rfl, hlookup⟩ := (hr.plain r .refl).lookup hkind
      simp only [hlookup, Run.pure_apply]
    | _ => rfl
  rw [Engine.enumerate, Run.bind_ok hnone, limit_engine]

theorem newIterator_added (m : Machine) (source : IterationSource) :
    ∃ m', Engine.newIterator source m = .ok ⟨m.size⟩ m' ∧ m.Grown m' ∧
      m'.heap.kind ⟨m.size⟩ = .iterator source .fresh :=
  ⟨_, rfl, .allocate m _, congrArg Object.kind (Heap.object_allocate_self _ _)⟩

/-- The look-up of an accessor reads the objects of its walk. -/
theorem reads_findAccessor (hm : m.Attained) (half : AccessorHalf) (k : Key) {l : List Ref}
    (hl : ∀ r ∈ l, m.Open r) :
    ∃ v, Run.Reads n m ((engine n).findAccessor half k l) v := by
  induction l with
  | nil => exact ⟨_, .of_ok rfl⟩
  | cons r rest ih =>
    have hr := hl r List.mem_cons_self
    have hown := hm.layered.reads_getOwnProperty hr.live (fun q hq => (hr.targets q hq).lacks _) n k
    obtain ⟨v, hrest⟩ := ih fun q hq => hl q (List.mem_cons_of_mem r hq)
    cases hpick : (m.heap.shown r k).bind half.pick with
    | some f =>
      refine ⟨.object f, hown.bind (.of_ok ?_)⟩
      simp only [hpick, Run.pure_apply]
    | none =>
      refine ⟨v, hown.bind ?_⟩
      simp only [hpick]
      exact hrest

end Enumerating

/-- **The enumeration of an object ends if and only if its prototype chain does not come back**,
where the proxies that it asks have no traps.  The look-up of an accessor along the same chain always
ends: it stops at an object that it has seen. -/
theorem enumeration_ends_unless_revisited {m : Machine} (hm : m.Attained) {o : Ref}
    (ho : o.index < m.size) (hplain : ∀ q, ReflTransGen m.heap.Asks o q → m.heap.Plain q) :
    (m.heap.Walk [] (some o) (m.heap.ancestors o) ∧
      ∀ n, m.size ≤ n → ∀ half key k, (engine n).toPropertyKey key m = .ok k m →
        ∃ v, (engine n).lookupAccessor half (.object o) key m = .ok v m) ∧
    (¬ m.heap.Revisits o → ∀ n, m.size ≤ n → ∃ m',
      (engine n).enumerate o m = .ok ⟨m.size⟩ m' ∧ m.Grown m' ∧
      m'.heap.kind ⟨m.size⟩ = .iterator
        (.list ((m.heap.visibleKeys [] (m.heap.ancestors o)).map Key.toValue).toArray) .fresh) ∧
    (m.heap.Revisits o → ∀ n, (engine n).enumerate o m = .error .outOfFuel m) := by
  have hopen : m.Open o := ⟨ho, hplain⟩
  have hwalk : m.heap.Walk [] (some o) (m.heap.ancestors o) := by
    refine Heap.walk_ancestorsWithin (fun r q hq => hm.prototype_live hq) List.nodup_nil
      (fun q hq => by cases hq) (fun q hq => ?_) ?_
    · cases hq
      exact ho
    · rw [List.length_nil]
      omega
  have hvisited (k : Key) : (∅ : Std.TreeSet Key).contains k =
      (!k.isSymbol && ([] : List Ref).any fun q => (m.heap.shown q k).isSome) := by
    simp
  have hobjects : ∀ r ∈ m.heap.ancestors o, m.Open r := by
    intro r hr
    obtain ⟨_, hstart, hreach⟩ := hwalk.reaches hr
    cases hstart
    exact hopen.of_reaches hm hreach
  refine ⟨⟨hwalk, fun n hn half key k hkey => ?_⟩, fun hfree n hn => ?_, fun hrevisits n => ?_⟩
  · obtain ⟨v, hreads⟩ := reads_findAccessor (n := n) hm half k hobjects
    refine ⟨v, ?_⟩
    show ((engine n).toPropertyKey key >>= fun k => Run.heap >>= fun heap =>
      (engine n).findAccessor half k (heap.ancestors o)) m = _
    rw [Run.bind_ok hkey]
    exact hreads.ok hn
  · have hclimb : m.heap.Climb (some o) (m.heap.ancestors o) := by
      refine hwalk.climb (fun q hq => by cases hq) fun r hr => ?_
      cases hr
      exact hfree
    have hlength : (m.heap.ancestors o).length ≤ m.size :=
      Heap.length_le_size hwalk.nodup.1 fun r hr => (hobjects r hr).live
    have hreads := reads_enumerateChain (n := n) hm hclimb
      (fun r hr => by cases hr; exact hopen) (Nat.le_trans hlength hn) hvisited
    rw [enumerate_eq hopen, Run.bind_ok (hreads.ok hn)]
    exact newIterator_added m _
  · rw [enumerate_eq hopen]
    exact Run.bind_error (enumerateChain_outOfFuel hm hopen hrevisits n hvisited)

/-! ### An object below a proxy of itself -/

/-- An object takes a proxy of itself, one without traps, for its prototype. -/
def Expr.belowOwnProxy : Expr :=
  .operation (.control (.sequence [0, 1, 2]))
    [.operation (.create (.object none [])) [] (some "a"),
      .operation (.extend (.proxy 0 [])) [.name "a"] (some "p"),
      .operation (.access (.setPrototypeOf 0 1)) [.name "a", .name "p"] none]
    none

def Machine.belowOwnProxy : Machine :=
  Run.final ((engine 9).answer (.evaluate none .belowOwnProxy)
    (Session.initialMachine ⟨true, false⟩))

theorem Machine.attained_belowOwnProxy : Machine.belowOwnProxy.Attained := by
  refine .evaluate 9 (fun r => ?_) (.initial _)
  simp [Expr.belowOwnProxy]

/-- The target of a proxy and the traps it has. -/
def Kind.forwards? : Kind → Option (Ref × List Trap)
  | .proxy target traps => some (target, traps.traps)
  | _ => none

/-- The chain comes back to the proxy: the enumeration of the object does not end, and the look-up
of an accessor does. -/
theorem enumeration_ends_unless_revisited_belowOwnProxy :
    Machine.belowOwnProxy.Attained ∧ Machine.belowOwnProxy.heap.Revisits ⟨46⟩ ∧
      (∀ q, ReflTransGen Machine.belowOwnProxy.heap.Asks ⟨46⟩ q →
        Machine.belowOwnProxy.heap.Plain q) ∧
      (∀ n, (engine n).enumerate ⟨46⟩ Machine.belowOwnProxy =
        .error .outOfFuel Machine.belowOwnProxy) ∧
      ∃ v, (engine 48).lookupAccessor .getter (.object ⟨46⟩) (.text "x") Machine.belowOwnProxy =
        .ok v Machine.belowOwnProxy := by
  have hdecided : Machine.belowOwnProxy.heap.objects.size = 48 ∧
      Machine.belowOwnProxy.heap.prototypeOf ⟨46⟩ = some ⟨47⟩ ∧
      Machine.belowOwnProxy.heap.prototypeOf ⟨47⟩ = some ⟨47⟩ ∧
      (Machine.belowOwnProxy.heap.kind ⟨46⟩).forwards? = none ∧
      (Machine.belowOwnProxy.heap.kind ⟨47⟩).forwards? = some (⟨46⟩, []) := by decide +kernel
  have hm := Machine.attained_belowOwnProxy
  -- from here on the machine is not evaluated any more
  generalize Machine.belowOwnProxy = m at *
  obtain ⟨hsize, hobject, hproxy, hplain, hforwards⟩ := hdecided
  have hrevisits : m.heap.Revisits ⟨46⟩ := ⟨⟨47⟩, .single hobject, .single hproxy⟩
  have hpair {q : Ref} (hq : ReflTransGen m.heap.Asks ⟨46⟩ q) : q = ⟨46⟩ ∨ q = ⟨47⟩ := by
    induction hq with
    | refl => exact .inl rfl
    | tail _ hasks ih =>
      rcases ih with rfl | rfl
      · rcases hasks with hparent | ⟨traps, hkind⟩
        · exact .inr (Option.some_inj.1 (hparent.symm.trans hobject))
        · rw [hkind] at hplain
          cases hplain
      · rcases hasks with hparent | ⟨traps, hkind⟩
        · exact .inr (Option.some_inj.1 (hparent.symm.trans hproxy))
        · rw [hkind] at hforwards
          exact .inl (congrArg Prod.fst (Option.some_inj.1 hforwards))
  have hall : ∀ q, ReflTransGen m.heap.Asks ⟨46⟩ q → m.heap.Plain q := by
    intro q hq target traps hkind trap
    rcases hpair hq with rfl | rfl
    · rw [hkind] at hplain
      cases hplain
    · rw [hkind] at hforwards
      have hnone : traps.traps = [] := congrArg Prod.snd (Option.some_inj.1 hforwards)
      have hmem : trap ∈ Trap.all := by cases trap <;> decide
      simpa using List.filter_eq_nil_iff.1 hnone trap hmem
  have hlive : (⟨46⟩ : Ref).index < m.size := by
    show 46 < m.heap.objects.size
    omega
  obtain ⟨⟨-, hlookup⟩, -, hendless⟩ := enumeration_ends_unless_revisited hm hlive hall
  exact ⟨hm, hrevisits, hall, hendless hrevisits,
    hlookup 48 (Nat.le_of_eq hsize) .getter (.text "x") "x" rfl⟩

end ObjectModel
