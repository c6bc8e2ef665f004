import ObjectModel.Proofs.Agreement
import ObjectModel.Proofs.Forwarding
import ObjectModel.Proofs.Lineage

/-!
# Hidden targets

A proxy that is made from a handler stands before a new object, its target.  It shows the target's
prototype and nothing else of it: no answer, no variable and no other object ever refers to the
target.  So the target stays as it was made, and what becomes of a property is up to the handler.

A client works on the places that it holds, and holds what it gets for answers
(`Machine.ClientRun`).  Expressions are evaluated by methods too, so a client can enumerate the
proxy, ask what it has of its own and call any function on it.  Clients keep to every discipline
that knows the places they start with; the one that matters here knows all places but the target
(`Discipline.secluding`).
-/

namespace ObjectModel

open Discipline

variable {D : Discipline} {α : Type} {m m' m₁ m₂ : Machine}

/-! ## Clients -/

/-- The places in the answer to a method. -/
def Method.Gives : {α : Type} → Method α → α → Ref → Prop
  | _, .getOwnProperty _ _ => refers
  | _, .defineOwnProperty _ _ _ => fun _ _ => False
  | _, .hasProperty _ _ => fun _ _ => False
  | _, .get _ _ _ => refers
  | _, .set _ _ _ _ => fun _ _ => False
  | _, .delete _ _ => fun _ _ => False
  | _, .ownKeys _ => fun _ _ => False
  | _, .setPrototypeOf _ _ => fun _ _ => False
  | _, .call _ _ _ => refers
  | _, .construct _ _ _ => refers
  | _, .evaluate _ _ => refers

/-- The places that a method hands out at its end, with its answer or with what it throws. -/
def Method.Yields (μ : Method α) : EStateM.Result Halt Machine α → Ref → Prop
  | .ok a _ => μ.Gives a
  | .error (.thrown v) _ => refers v
  | .error .outOfFuel _ => fun _ => False

/-- Where a client can bring a machine in which it holds some places, and what it then holds: it has
methods answered on places that it holds, and keeps what they hand out.  A method may be stopped
where another one is entered or left, in any depth. -/
inductive Machine.ClientRun (m : Machine) (held : Ref → Prop) : Machine → (Ref → Prop) → Prop where
  | start : ClientRun m held m held
  | answer {α : Type} {m₁ : Machine} {held₁ : Ref → Prop} (h : ClientRun m held m₁ held₁) (n : Nat)
      (μ : Method α) (hμ : ∀ r, refers μ r → held₁ r) (S : Stops) :
      ClientRun m held (Run.final ((S.engine n).answer μ m₁)) fun r =>
        held₁ r ∨ μ.Yields ((S.engine n).answer μ m₁) r

/-- What is handed out is known. -/
theorem Discipline.Meets.knows {μ : Method α} {res : EStateM.Result Halt Machine α} {r : Ref}
    (h : D.Meets (μ.Ensures D) m res) (hr : μ.Yields res r) : D.knows (Run.final res).size r := by
  cases res with
  | ok a m' =>
    have hensures := h.2
    cases μ <;> first | exact hensures r hr | exact hr.elim
  | error e m' =>
    cases e with
    | thrown v => exact h.2 r hr
    | outOfFuel => exact hr.elim

/-- **Clients keep to a discipline that knows what they hold.** -/
theorem Machine.ClientRun.follows (hD : D.scripted) (hall : ∀ d, D.allows d)
    {held held' : Ref → Prop} (h : m.ClientRun held m' held') (hm : D.Sound m)
    (hheld : ∀ r, held r → D.knows m.size r) :
    D.Follows m m' ∧ ∀ r, held' r → D.knows m'.size r := by
  induction h with
  | start => exact ⟨.refl hm, hheld⟩
  | @answer _ m₁ _ _ n μ hμ S ih =>
    obtain ⟨hfollows, hheld₁⟩ := ih
    have hadmits : D.Admits m₁.size μ := Seen.admits fun r hr => hheld₁ r (hμ r hr)
    have hmeets := (Stops.engine_meets hD hall S n).answers μ m₁ hadmits hfollows.sound
    refine ⟨hfollows.trans hmeets.follows, ?_⟩
    rintro r (hr | hr)
    · exact D.knows_mono hmeets.follows.grows (hheld₁ r hr)
    · exact hmeets.knows hr

/-! ## An object that nobody knows -/

/-- The object keeps its prototype and its stored properties. -/
structure Object.Kept (o o' : Object) : Prop where
  prototype : o'.prototype = o.prototype
  stored : ∀ k, o'.properties.find? k = o.properties.find? k

theorem Object.Kept.refl (o : Object) : o.Kept o := ⟨rfl, fun _ => rfl⟩

theorem Object.Kept.trans {o₁ o₂ o₃ : Object} (h : o₁.Kept o₂) (h' : o₂.Kept o₃) : o₁.Kept o₃ :=
  ⟨h'.prototype.trans h.prototype, fun k => (h'.stored k).trans (h.stored k)⟩

/-- A change of one object keeps another, or that one if it keeps itself. -/
theorem Heap.kept_modify {h : Heap} {r t : Ref} {f : Object → Object}
    (hf : r = t → (h.object r).Kept (f (h.object r))) :
    (h.object t).Kept ((h.modify r f).object t) := by
  rw [object_modify]
  split
  · next ht =>
    obtain ⟨rfl, -⟩ := ht
    exact hf rfl
  · exact .refl _

theorem Intrinsic.ref_ne {t : Ref} (ht : Intrinsic.all.length ≤ t.index) (i : Intrinsic) :
    i.ref ≠ t := by
  rintro rfl
  exact Nat.not_le.2 i.index_ref_lt ht

theorem installedKeys_eq_nil {t : Ref} (ht : Intrinsic.all.length ≤ t.index) :
    installedKeys t = [] := by
  refine List.eq_nil_iff_forall_not_mem.2 fun k hk => ?_
  obtain ⟨i, hi⟩ := exists_intrinsic_of_mem_installedKeys hk
  exact Intrinsic.ref_ne ht i hi

/-- A change that does not know an object keeps it. -/
theorem Machine.Change.kept {knows : Nat → Ref → Prop} {allows : Descriptor → Prop} {t : Ref}
    (ht : Intrinsic.all.length ≤ t.index) (hknows : ∀ b, ¬ knows b t)
    (h : m.Change knows allows m') (hlive : t.index < m.size) :
    (m.heap.object t).Kept (m'.heap.object t) := by
  cases h with
  | beside hheap _ _ _ =>
    rw [hheap]
    exact .refl _
  | allocate o _ _ _ =>
    rw [heap_withHeap, m.heap.object_allocate_of_lt o hlive]
    exact .refl _
  | iteration proto next source _ _ =>
    rw [newIterationObject_live proto next source m hlive]
    exact .refl _
  | symbol description => exact .refl _
  | revise r hrevision hr =>
    refine Heap.kept_modify fun hrt => ⟨hrevision.prototype, fun k => ?_⟩
    rw [hr.resolve_left (hrt ▸ hknows _)]
  | relink r p _ _ _ hknown =>
    exact Heap.kept_modify fun hrt => absurd hknown (hrt ▸ hknows _)
  | install hnone =>
    have hsize : Intrinsic.all.length ≤ m.size := Nat.le_trans ht (Nat.le_of_lt hlive)
    obtain ⟨o, hpopulated, hobject⟩ := (Machine.installed hnone hsize).old t hlive
    rw [hobject, if_neg (Intrinsic.ref_ne ht _).symm]
    rw [installedKeys_eq_nil ht] at hpopulated
    exact ⟨hpopulated.prototype, fun k => hpopulated.stored k List.not_mem_nil⟩

/-- No object is lost or becomes one of another kind, and one object is kept. -/
structure Machine.Secludes (t : Ref) (m m' : Machine) : Prop extends m.Onward m' where
  kept : t.index < m.size → (m.heap.object t).Kept (m'.heap.object t)

theorem Machine.Secludes.trans {t : Ref} {m₁ m₂ m₃ : Machine} (h : m₁.Secludes t m₂)
    (h' : m₂.Secludes t m₃) : m₁.Secludes t m₃ where
  toOnward := h.toOnward.trans h'.toOnward
  kept hlive := (h.kept hlive).trans (h'.kept (Nat.lt_of_lt_of_le hlive h.grows))

namespace Discipline

/-- All existing objects are known but one, which is none of the intrinsic ones. -/
def secluding (t : Ref) (ht : Intrinsic.all.length ≤ t.index) : Discipline where
  base := t.index + 1
  knows b r := places.knows b r ∧ r ≠ t
  allows _ := True
  scripted := True
  prompt := True
  keeps := Machine.Secludes t
  knows_mono hb hr := ⟨places.knows_mono hb hr.1, hr.2⟩
  knows_fresh b hb := by
    refine ⟨places.knows_fresh b (Nat.zero_le _), ?_⟩
    rintro rfl
    exact Nat.not_succ_le_self b hb
  knows_intrinsic b i := ⟨places.knows_intrinsic b i, Intrinsic.ref_ne ht i⟩
  keeps_refl m := ⟨.refl m, fun _ => .refl _⟩
  keeps_trans := .trans
  keeps_change h := ⟨.change h, h.kept ht fun _ hknows => hknows.2 rfl⟩
  keeps_visit _ h := ⟨⟨h.grows, h.kinds⟩, h.kept⟩
  keeps_settle {m s m' iterator array c c'} hkind harray hle hprompt hs hms hsm' := by
    refine ⟨kinds.keeps_settle hkind harray.1 hle hprompt hs hms.toOnward hsm'.toOnward, ?_⟩
    intro hlive
    refine (hsm'.kept hlive).trans (Heap.kept_modify fun _ => ?_)
    split
    · exact ⟨rfl, fun _ => rfl⟩
    · exact .refl _

/-- A new object is hidden as long as nothing refers to it. -/
theorem sound_secluding {o : Object} (hm : places.Sound m) (hsize : Intrinsic.all.length ≤ m.size)
    (ho : places.Seen m.size o) :
    (secluding ⟨m.size⟩ hsize).Sound (m.withHeap (m.heap.allocate o).2) := by
  have hnew : (m.withHeap (m.heap.allocate o).2).size = m.size + 1 := Heap.size_allocate ..
  have hknows (r : Ref) (hr : places.knows m.size r) :
      (secluding ⟨m.size⟩ hsize).knows (m.withHeap (m.heap.allocate o).2).size r := by
    have hlive : r.index < m.size := hr.elim id fun h => Nat.lt_of_lt_of_le h hsize
    refine ⟨.inl (by omega), ?_⟩
    rintro rfl
    exact Nat.lt_irrefl _ hlive
  refine ⟨Nat.le_of_eq hnew.symm, ?_⟩
  rintro r (⟨p, hp⟩ | hr)
  · have hp : refers ((m.heap.allocate o).2.object p) r := hp
    rw [Heap.object_allocate] at hp
    split at hp
    · exact hknows r (ho r hp)
    · exact hknows r (hm.2 r (.inl ⟨p, hp⟩))
  · exact hknows r (hm.2 r (.inr hr))

end Discipline

/-! ## The proxy and its target -/

/-- An ordinary object with a prototype and without properties. -/
structure Machine.Bare (m : Machine) (t : Ref) (proto : Option Ref) : Prop where
  live : t.index < m.size
  kind : m.heap.kind t = .ordinary
  prototype : (m.heap.object t).prototype = proto
  stored : ∀ k, (m.heap.object t).properties.find? k = none

/-- A proxy with the traps of a handler stands before such an object. -/
structure Machine.Fronts (m : Machine) (p t : Ref) (h : Handler) (proto : Option Ref) : Prop
    extends m.Bare t proto where
  proxy : m.heap.kind p = .proxy t (.adapted h none)

namespace Machine

variable {p t : Ref} {h : Handler} {proto : Option Ref}

theorem bare_allocate (m : Machine) (proto : Option Ref) :
    (m.withHeap (m.heap.allocate (.new proto .ordinary)).2).Bare ⟨m.size⟩ proto := by
  have hobject : (m.heap.allocate (.new proto .ordinary)).2.object ⟨m.size⟩ =
      .new proto .ordinary := m.heap.object_allocate_self _
  refine ⟨?_, congrArg Object.kind hobject, congrArg Object.prototype hobject, fun k => ?_⟩
  · rw [size_withHeap, Heap.size_allocate]
    exact Nat.lt_succ_self _
  · rw [heap_withHeap, hobject]
    rfl

theorem Bare.of_secludes (hbare : m.Bare t proto) (hs : m.Secludes t m') : m'.Bare t proto := by
  have hkind := hs.kinds t hbare.live
  rw [hbare.kind] at hkind
  obtain ⟨hprototype, hstored⟩ := hs.kept hbare.live
  exact ⟨Nat.lt_of_lt_of_le hbare.live hs.grows, hkind.ordinary,
    hprototype.trans hbare.prototype, fun k => (hstored k).trans (hbare.stored k)⟩

theorem Bare.ownDescriptor (hbare : m.Bare t proto) (k : Key) :
    (m.heap.object t).ownDescriptor k = none := by
  have harray : (m.heap.object t).isArray = false := by
    unfold Object.isArray
    rw [show (m.heap.object t).kind = _ from hbare.kind]
  rw [Object.ownDescriptor_eq fun h => absurd (harray.symm.trans h) Bool.false_ne_true,
    hbare.stored]
  rfl

namespace Fronts

theorem of_secludes (hfronts : m.Fronts p t h proto) (hs : m.Secludes t m') :
    m'.Fronts p t h proto := by
  have hp : p.index < m.size := Heap.live_of_kind (by simp [hfronts.proxy])
  have hproxy := hs.kinds p hp
  rw [hfronts.proxy] at hproxy
  exact ⟨hfronts.toBare.of_secludes hs, hproxy.proxy⟩

/-- The proxy shows the prototype of its target. -/
theorem prototypeOf (hfronts : m.Fronts p t h proto) : m.heap.prototypeOf p = proto := by
  have hroot (n : Nat) : m.heap.rootWithin n t = t := by
    cases n with
    | zero => rfl
    | succ n => simp only [Heap.rootWithin, hfronts.kind]
  have hp : p.index < m.heap.objects.size := Heap.live_of_kind (by simp [hfronts.proxy])
  obtain ⟨n, hn⟩ := Nat.exists_eq_succ_of_ne_zero (Nat.ne_zero_of_lt hp)
  unfold Heap.prototypeOf Heap.root
  rw [hn, Heap.rootWithin, hfronts.proxy]
  dsimp only
  rw [hroot]
  exact hfronts.prototype

/-- The proxy takes no other prototype, and not even the one that it has. -/
theorem setPrototypeOf_throws (hfronts : m.Fronts p t h proto) (n : Nat) (q : Option Ref) :
    ∃ v m', (engine (n + 1)).setPrototypeOf p q m = .error (.thrown v) m' ∧
      Session.errorKind? m'.heap v = some .typeError := by
  obtain ⟨v, m', hfail, -, hkind⟩ := fail_apply (α := Bool) .prototypeFixed m
  refine ⟨v, m', ?_, hkind⟩
  show (engine n).step (.setPrototypeOf p q) m = _
  simp only [Engine.step, Run.bind_apply, Run.kind, hfronts.proxy, Engine.proxySetPrototypeOf]
  exact hfail

end Fronts

end Machine

namespace Engine

variable {eng : Engine} {handler proto : Value} {p : Ref}

/-- To make a proxy a target is made, the handler is read, and then comes the proxy. -/
theorem exists_of_proxyCreate (h : eng.proxyCreate handler proto m = .ok p m₁) :
    ∃ (hd : Handler) (m₂ : Machine), handler = .object hd.object ∧
      eng.adapt hd.object none (m.withHeap (m.heap.allocate (.new proto.ref? .ordinary)).2) =
        .ok (.adapted hd none) m₂ ∧
      newProxy ⟨m.size⟩ (.adapted hd none) m₂ = .ok p m₁ := by
  cases handler with
  | object r =>
    have hrest : (eng.adapt r none >>= newProxy ⟨m.size⟩)
        (m.withHeap (m.heap.allocate (.new proto.ref? .ordinary)).2) = .ok p m₁ := by
      cases proto with
      | object q => exact h
      | null => exact h
      | undefined => exact h
      | _ => cases h
    rw [Run.bind_apply, adapt_eq] at hrest
    cases hres : eng.readOperations r HandlerOperation.all
        (m.withHeap (m.heap.allocate (.new proto.ref? .ordinary)).2) with
    | error e m₂ =>
      rw [hres] at hrest
      cases hrest
    | ok found m₂ =>
      rw [hres] at hrest
      refine ⟨⟨r, found⟩, _, rfl, ?_, hrest⟩
      rw [adapt_eq, hres]
      rfl
  | _ => cases h

/-- A proxy is made before a new target that nothing else refers to. -/
theorem fronts_of_proxyCreate (hm : places.Sound m) (hsize : Intrinsic.all.length ≤ m.size)
    (heng : eng.Meets (secluding ⟨m.size⟩ hsize))
    (hhandler : ∀ r, refers handler r → r.index < m.size)
    (hproto : ∀ r, refers proto r → r.index < m.size)
    (h : eng.proxyCreate handler proto m = .ok p m₁) :
    ∃ hd : Handler, handler = .object hd.object ∧ m₁.Fronts p ⟨m.size⟩ hd proto.ref? ∧
      (secluding ⟨m.size⟩ hsize).Sound m₁ ∧
        ∀ r, r.index < m.size ∨ r = p → (secluding ⟨m.size⟩ hsize).knows m₁.size r := by
  obtain ⟨hd, m₂, rfl, hadapt, hnew⟩ := exists_of_proxyCreate h
  have hbare := m.bare_allocate proto.ref?
  have htarget : places.Seen m.size (Object.new proto.ref? .ordinary) :=
    seen_new.2 ⟨Seen.ref? fun r hr => .inl (hproto r hr), nofun⟩
  have hsound := sound_secluding hm hsize htarget
  generalize m.withHeap (m.heap.allocate (.new proto.ref? .ordinary)).2 = m₀ at *
  have hold {m' : Machine} (hgrows : m₀.size ≤ m'.size) (r : Ref) (hr : r.index < m.size) :
      (secluding ⟨m.size⟩ hsize).knows m'.size r := by
    have hlive : m.size < m₀.size := hbare.live
    refine ⟨.inl (by omega), ?_⟩
    rintro rfl
    exact Nat.lt_irrefl _ hr
  -- neither reading the handler nor making the proxy touches the target
  have hreads : Routine (secluding ⟨m.size⟩ hsize) m₀.size (secluding ⟨m.size⟩ hsize).Seen
      fun eng => eng.adapt hd.object none :=
    .adapt (seen_ref.2 (hold (Nat.le_refl _) _ (hhandler _ rfl))) seen_none
  have hread := hreads.meets heng (Nat.le_refl _) hsound
  rw [hadapt] at hread
  have hmakes : Routine (secluding ⟨m.size⟩ hsize) m₂.size (secluding ⟨m.size⟩ hsize).Seen
      fun _ => newProxy ⟨m.size⟩ (.adapted hd none) :=
    .newProxy (fun hexposes => by cases hexposes) hread.2
      fun _ => Nat.lt_of_lt_of_le hbare.live hread.1.grows
  have hmake := hmakes.meets heng (Nat.le_refl _) hread.1.sound
  rw [hnew] at hmake
  have hfollows := hread.1.trans hmake.1
  refine ⟨hd, rfl, ⟨hbare.of_secludes hfollows.keeps, kind_newProxy hnew⟩, hfollows.sound, ?_⟩
  rintro r (hr | rfl)
  · exact hold hfollows.grows r hr
  · exact seen_ref.1 hmake.2

end Engine

/-! ## Questions about properties -/

/-- The object about whose properties or prototype the method is. -/
def Method.subject? : {α : Type} → Method α → Option Ref
  | _, .getOwnProperty o _ => some o
  | _, .defineOwnProperty o _ _ => some o
  | _, .hasProperty o _ => some o
  | _, .get o _ _ => some o
  | _, .set o _ _ _ => some o
  | _, .delete o _ => some o
  | _, .ownKeys o => some o
  | _, .setPrototypeOf o _ => some o
  | _, .call _ _ _ => none
  | _, .construct _ _ _ => none
  | _, .evaluate _ _ => none

theorem Discipline.Admits.subject {b : Nat} {μ : Method α} {o : Ref} (h : D.Admits b μ)
    (ho : μ.subject? = some o) : D.knows b o := by
  cases μ with
  | call | construct | evaluate => cases ho
  | getOwnProperty | hasProperty | delete | ownKeys =>
    cases ho
    exact h o rfl
  | defineOwnProperty | get | set | setPrototypeOf =>
    cases ho
    exact h o (.inl rfl)

/-- The method is not about the object. -/
def Method.spares (t : Ref) (μ : Method α) (_ : Machine) : Bool := μ.subject? != some t

/-- Nothing is ever asked about the properties of an object that nobody knows: it does not matter
what would be answered. -/
theorem engine_agreesOn_spares {t : Ref} (ht : Intrinsic.all.length ≤ t.index)
    (otherwise : {β : Type} → Method β → Run β) (n : Nat) :
    (engine n).AgreesOn (secluding t ht) (fun _ => True)
      (watchedEngine (Method.spares t) otherwise n) := by
  refine watchedEngine_agrees otherwise trivial (fun _ => trivial)
    ⟨fun _ _ => trivial, fun _ _ => trivial⟩ (fun μ m hμ _ => ?_) n
  exact bne_iff_ne.2 fun hsubject => (hμ.subject hsubject).2 rfl

/-- **A handler's proxy hides its target.**  Let a client start with the proxy and with all objects
that are older, and let it do whatever it can, the handler's functions included.  Then the proxy
shows the prototype that it was made with, and setting its prototype throws; the target has no
properties, and the client does not hold it; and no method that the client can have answered asks
anything about the properties of the target, so it does not matter what would be answered. -/
theorem handler_proxy_hides_target (hm : m.Attained) {handler proto : Value}
    (hhandler : ∀ r, refers handler r → r.index < m.size)
    (hproto : ∀ r, refers proto r → r.index < m.size) {n : Nat} {p : Ref}
    (hcreate : (engine n).proxyCreate handler proto m = .ok p m₁) :
    ∃ h : Handler, handler = .object h.object ∧
      ∀ {m₂ : Machine} {held : Ref → Prop},
        m₁.ClientRun (fun r => r.index < m.size ∨ r = p) m₂ held →
          m₂.heap.kind p = .proxy ⟨m.size⟩ (.adapted h none) ∧
          m₂.heap.prototypeOf p = proto.ref? ∧
          (∀ fuel q, ∃ v m₃, (engine (fuel + 1)).setPrototypeOf p q m₂ = .error (.thrown v) m₃ ∧
            Session.errorKind? m₃.heap v = some .typeError) ∧
          (∀ k, (m₂.heap.object ⟨m.size⟩).ownDescriptor k = none) ∧
          ¬ held ⟨m.size⟩ ∧
          ∀ {α : Type} (fuel : Nat) (μ : Method α), (∀ r, refers μ r → held r) →
            ∀ otherwise : {β : Type} → Method β → Run β,
              (watchedEngine (Method.spares ⟨m.size⟩) otherwise fuel).answer μ m₂ =
                (engine fuel).answer μ m₂ := by
  obtain ⟨hsound, hsize⟩ := hm.soundKinds
  have heng : (engine n).Meets (secluding ⟨m.size⟩ hsize) :=
    engine_meets trivial (fun _ => trivial) n
  obtain ⟨h, hobject, hfronts, hsound₁, hheld⟩ :=
    Engine.fronts_of_proxyCreate hsound hsize heng hhandler hproto hcreate
  refine ⟨h, hobject, fun {m₂ held} hrun => ?_⟩
  obtain ⟨hfollows, hheld₂⟩ := hrun.follows trivial (fun _ => trivial) hsound₁ hheld
  have hfronts₂ := hfronts.of_secludes hfollows.keeps
  refine ⟨hfronts₂.proxy, hfronts₂.prototypeOf, hfronts₂.setPrototypeOf_throws,
    hfronts₂.ownDescriptor, fun ht => (hheld₂ _ ht).2 rfl, fun fuel μ hμ otherwise => ?_⟩
  have hadmits : (secluding ⟨m.size⟩ hsize).Admits m₂.size μ :=
    Seen.admits fun r hr => hheld₂ r (hμ r hr)
  exact ((engine_agreesOn_spares hsize otherwise fuel).2 μ m₂ hadmits hfollows.sound trivial).symm

/-- Makes a handler whose `set` closes the object that it assigns for and gives it another
prototype. -/
def Expr.closingHandler : Expr :=
  .operation (.create (.object none [(0, 1)]))
    [.value (.text "set"),
      .operation (.create (.function 0 ⟨"set", none, false, none, 0, [1, 2], "set", false⟩))
        [.value .undefined,
          .operation (.access (.preventExtensions 0)) [.name "arg0"] none,
          .operation (.access (.setPrototypeOf 0 1)) [.name "arg0", .name "this"] none] none] none

def Machine.closingHandler : Machine :=
  Run.final ((engine 30).answer (.evaluate none .closingHandler)
    (Session.initialMachine ⟨true, false⟩))

theorem Machine.attained_closingHandler : Machine.closingHandler.Attained := by
  have hliteral : ∀ r, ¬ Expr.closingHandler.RefersTo r := by
    intro r
    simp [Expr.closingHandler]
  exact .evaluate 30 hliteral (.initial _)

/-- An assignment through the proxy runs the handler's function, which closes the target behind the
proxy and then fails to change its prototype. -/
theorem handler_proxy_hides_target_closingHandler :
    Machine.closingHandler.Attained ∧ Machine.closingHandler.size = 48 ∧
      ∃ m₁ m₂ held,
        (engine 30).proxyCreate (.object ⟨46⟩) (.object Intrinsic.arrayPrototype.ref)
          Machine.closingHandler = .ok ⟨49⟩ m₁ ∧
        (∃ v, (engine 30).setFor ⟨49⟩ "x" (.ofNat 1) (.object ⟨49⟩) m₁ =
          .error (.thrown v) m₂) ∧
        m₁.heap.isExtensible ⟨49⟩ = true ∧ m₂.heap.isExtensible ⟨49⟩ = false ∧
        m₁.ClientRun (fun r => r.index < 48 ∨ r = ⟨49⟩) m₂ held ∧
        m₂.heap.prototypeOf ⟨49⟩ = some Intrinsic.arrayPrototype.ref ∧
        (∃ v m₃, (engine 30).setPrototypeOf ⟨49⟩ (some Intrinsic.arrayPrototype.ref) m₂ =
          .error (.thrown v) m₃ ∧ Session.errorKind? m₃.heap v = some .typeError) ∧
        (∀ k, (m₂.heap.object ⟨48⟩).ownDescriptor k = none) ∧ ¬ held ⟨48⟩ ∧
        ∀ otherwise : {β : Type} → Method β → Run β,
          (watchedEngine (Method.spares ⟨48⟩) otherwise 30).getFor ⟨49⟩ "x" (.object ⟨49⟩) m₂ =
            (engine 30).getFor ⟨49⟩ "x" (.object ⟨49⟩) m₂ := by
  obtain ⟨hcreate, hthrown, hopen, hclosed, hsize⟩ :
      Run.given? ((engine 30).proxyCreate (.object ⟨46⟩) (.object Intrinsic.arrayPrototype.ref)
        Machine.closingHandler) = some ⟨49⟩ ∧
      (Run.thrown? ((engine 30).setFor ⟨49⟩ "x" (.ofNat 1) (.object ⟨49⟩)
        (Run.final ((engine 30).proxyCreate (.object ⟨46⟩) (.object Intrinsic.arrayPrototype.ref)
          Machine.closingHandler)))).isSome = true ∧
      (Run.final ((engine 30).proxyCreate (.object ⟨46⟩) (.object Intrinsic.arrayPrototype.ref)
        Machine.closingHandler)).heap.isExtensible ⟨49⟩ = true ∧
      (Run.final ((engine 30).setFor ⟨49⟩ "x" (.ofNat 1) (.object ⟨49⟩)
        (Run.final ((engine 30).proxyCreate (.object ⟨46⟩) (.object Intrinsic.arrayPrototype.ref)
          Machine.closingHandler)))).heap.isExtensible ⟨49⟩ = false ∧
      Machine.closingHandler.size = 48 := by decide +kernel
  have hm := Machine.attained_closingHandler
  -- from here on the machine is not evaluated any more
  generalize Machine.closingHandler = m at *
  have hcreate := Run.eq_ok_of_given? hcreate
  generalize Run.final ((engine 30).proxyCreate (.object ⟨46⟩)
    (.object Intrinsic.arrayPrototype.ref) m) = m₁ at *
  obtain ⟨v, hv⟩ := Option.isSome_iff_exists.1 hthrown
  obtain ⟨h, -, hclient⟩ := handler_proxy_hides_target hm
    (fun r hr => by cases hr; rw [hsize]; decide) (fun r hr => by cases hr; rw [hsize]; decide)
    hcreate
  rw [hsize] at hclient
  have hstart : m₁.ClientRun (fun r => r.index < 48 ∨ r = ⟨49⟩) m₁ _ := .start
  have hrun := hstart.answer 30 (.set ⟨49⟩ "x" (.ofNat 1) (.object ⟨49⟩)) (fun r hr => by
    rcases hr with hr | hr | hr
    · exact .inr hr.symm
    · cases hr
    · cases hr
      exact .inr rfl) .never
  rw [Stops.engine_never] at hrun
  obtain ⟨-, hprototype, hthrows, hbare, hhidden, hspares⟩ := hclient hrun
  refine ⟨hm, hsize, m₁, _, _, hcreate, ⟨v, Run.eq_error_of_thrown? hv⟩, hopen, hclosed, hrun,
    hprototype, hthrows 29 _, hbare, hhidden, fun otherwise => hspares 30 _ (fun r hr => ?_) _⟩
  rcases hr with hr | hr
  · exact .inl (.inr hr.symm)
  · cases hr
    exact .inl (.inr rfl)

end ObjectModel
