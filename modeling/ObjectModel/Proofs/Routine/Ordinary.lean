import ObjectModel.Engine.Collection
import ObjectModel.Engine.Iterator
import ObjectModel.Proofs.Routine.Access

/-!
# Routines of objects that are not proxies

Every run that revises an object in the heap is one `Machine.Change`: definition and removal of
properties, the length of an array, the slots of maps, sets and iterators, the closing of an
object and the relinking of its prototype.
-/

namespace ObjectModel

theorem Number.modWord_le (n : Number) : n.modWord ≤ maxWord := by
  cases n with
  | finite negative code =>
    simp only [Number.modWord]
    generalize (if negative = true then _ else _ : Int) = i
    have := Int.emod_lt_of_pos i (by decide : (0 : Int) < (maxWord + 1 : Nat))
    omega
  | _ => exact Nat.zero_le _

theorem Number.clampNat_le (n : Number) (limit : Nat) : n.clampNat limit ≤ limit := by
  unfold clampNat
  split
  · exact Nat.zero_le _
  · split <;> simp
  · split
    · exact Nat.zero_le _
    · exact Nat.min_le_right _ _

/-- Definition without an array's rules is the general one for what is no array. -/
theorem Object.define?_eq_defineStored? {o : Object} (h : o.isArray = false) (k : Key)
    (d : Descriptor) : o.define? k d = o.defineStored? k d := by
  unfold defineStored?
  split
  · unfold defineElement?
    split
    · next hk => simp [isArray, hk] at h
    · rfl
  · rfl

namespace Engine

/-! ## Runs that revise -/

theorem reviseWith_apply (o : Ref) (f : Object → Object × Bool) (m : Machine) :
    reviseWith o f m =
      .ok (f (m.heap.object o)).2
        (m.withHeap (m.heap.modify o fun _ => (f (m.heap.object o)).1)) := rfl

/-- What follows the reading of an object's kind may rely on it. -/
theorem kind_bind_congr {α : Type} {o : Ref} {f g : Kind → Run α}
    (h : ∀ m, f (m.heap.kind o) m = g (m.heap.kind o) m) :
    (Run.kind o >>= f) = (Run.kind o >>= g) := by
  funext m
  rw [Run.bind_apply, Run.bind_apply]
  exact h m

/-- What a definition makes of an object, an array's length apart. -/
def defined? (k : Key) (d : Descriptor) (o : Object) : Option Object :=
  if o.isArray ∧ k = .length then none else o.defineStored? k d

/-- What a removal makes of an object, an array's length apart. -/
def deleted? (k : Key) (o : Object) : Option Object :=
  if o.isArray ∧ k = .length then none else o.delete? k

theorem revision_defined? {allows : Descriptor → Prop} {k : Key} {d : Descriptor} {o o' : Object}
    (hd : allows d) (h : defined? k d o = some o') : o.Revision allows o' := by
  unfold defined? at h
  split at h
  · cases h
  · next hk => exact .define k d hd (fun ho hk' => hk ⟨ho, hk'⟩) h

theorem revision_deleted? {allows : Descriptor → Prop} {k : Key} {o o' : Object}
    (h : deleted? k o = some o') : o.Revision allows o' := by
  unfold deleted? at h
  split at h
  · cases h
  · next hk => exact .delete k (fun ho hk' => hk ⟨ho, hk'⟩) h

theorem reviseObject_congr {o : Ref} {f g : Object → Option Object} {m : Machine}
    (h : f (m.heap.object o) = g (m.heap.object o)) : reviseObject o f m = reviseObject o g m := by
  rw [reviseObject_apply, reviseObject_apply, h]

theorem ordinaryDefine_eq (eng : Engine) (o : Ref) (k : Key) (d : Descriptor) :
    eng.ordinaryDefine o k d =
      (Run.kind o >>= fun kind =>
        match kind with
        | .array _ _ => if k = .length then eng.defineLength o d else reviseObject o (defined? k d)
        | _ => reviseObject o (defined? k d)) := by
  refine kind_bind_congr fun m => ?_
  cases hkind : m.heap.kind o with
  | array length writable =>
    by_cases hk : k = .length
    · simp only [hk, if_true]
    · simp only [hk, if_false]
      exact reviseObject_congr (by simp [defined?, hk])
  | _ =>
    have harray : (m.heap.object o).isArray = false := by
      simp only [Heap.kind] at hkind
      simp [Object.isArray, hkind]
    exact reviseObject_congr (by simp [defined?, harray, Object.define?_eq_defineStored?])

theorem ordinaryDelete_eq (o : Ref) (k : Key) : ordinaryDelete o k = reviseObject o (deleted? k) := by
  funext m
  rw [ordinaryDelete, Run.bind_apply]
  simp only [Run.kind]
  cases hkind : m.heap.kind o with
  | array length writable =>
    have harray : (m.heap.object o).isArray = true := by
      simp only [Heap.kind] at hkind
      simp [Object.isArray, hkind]
    by_cases hk : k = .length
    · simp [hk, reviseObject_apply, deleted?, harray, Run.pure_apply]
    · simp only [hk, if_false]
      exact reviseObject_congr (by simp [deleted?, hk])
  | _ =>
    have harray : (m.heap.object o).isArray = false := by
      simp only [Heap.kind] at hkind
      simp [Object.isArray, hkind]
    exact reviseObject_congr (by simp [deleted?, harray])

/-- Relinking a prototype, by the checks in their order. -/
theorem ordinarySetPrototypeOf_apply (o : Ref) (p : Option Ref) (m : Machine) :
    ordinarySetPrototypeOf o p m =
      if p = (m.heap.object o).prototype then .ok true m
      else if (m.heap.object o).extensible = false then .ok false m
      else
        match m.heap.chainReaches o m.heap.objects.size p with
        | none => .error .outOfFuel m
        | some true => .ok false m
        | some false =>
          .ok true (m.withHeap (m.heap.modify o fun object => { object with prototype := p })) := by
  unfold ordinarySetPrototypeOf
  rw [Run.bind_apply]
  simp only [Run.object]
  split
  · rfl
  · cases (m.heap.object o).extensible with
    | false => rfl
    | true =>
      simp only [Bool.not_true, Bool.false_eq_true, if_false, Run.bind_apply, Run.heap]
      cases m.heap.chainReaches o m.heap.objects.size p with
      | none => rfl
      | some reaches => cases reaches <;> rfl

end Engine

namespace Discipline

variable {D : Discipline} {α : Type} {m : Machine} {r : Ref}

/-- A revision of one object follows the machine before it. -/
theorem Follows.revise {o : Object} (hm : D.Sound m)
    (h : Object.Revision D.allows (m.heap.object r) o) (ho : D.Seen m.size o)
    (hr : D.knows m.size r ∨ o.properties = (m.heap.object r).properties) :
    D.Follows m (m.withHeap (m.heap.modify r fun _ => o)) where
  keeps := D.keeps_change (.revise r h hr)
  sound := hm.modify ho
  grows := Nat.le_of_eq (Heap.size_modify ..).symm

/-- Changing the slots of an object's kind is one of its revisions. -/
theorem Follows.turn {kind : Kind} (hm : D.Sound m) (h : Kind.Turn (m.heap.kind r) kind)
    (hk : D.Seen m.size kind) :
    D.Follows m (m.withHeap (m.heap.modify r fun o => { o with kind })) := by
  have heq : m.heap.modify r (fun o => { o with kind }) =
      m.heap.modify r fun _ => { m.heap.object r with kind } := Heap.modify_congr rfl
  rw [heq]
  exact .revise hm (.turn h) ((hm.object r).withKind hk) (.inr rfl)

theorem Follows.relink {p : Option Ref} (hm : D.Sound m) (hknown : D.knows m.size r)
    (hr : (m.heap.object r).extensible = true) (hp : D.Seen m.size p)
    (hfree : m.heap.chainReaches r m.heap.objects.size p = some false) :
    D.Follows m (m.withHeap (m.heap.modify r fun o => { o with prototype := p })) where
  keeps := D.keeps_change (.relink r p hr hp hfree hknown)
  sound := hm.modify (seen_whole.2 ⟨hp, (seen_whole.1 (hm.object r)).2⟩)
  grows := Nat.le_of_eq (Heap.size_modify ..).symm

end Discipline

namespace Routine

open Discipline

variable {D : Discipline} {b : Nat} {o : Ref} {k : Key} {v receiver : Value} {d : Descriptor}

/-! ## Definition and removal -/

theorem reviseObject {f : Object → Option Object} (ho : D.Seen b o)
    (h : ∀ a a', f a = some a' → Object.Revision D.allows a a')
    (hs : ∀ b' a a', b ≤ b' → D.Seen b' a → f a = some a' → D.Seen b' a') :
    Routine D b Any fun _ => Engine.reviseObject o f := by
  refine .act _ fun m hb hm => ?_
  rw [Engine.reviseObject_apply]
  cases hf : f (m.heap.object o) with
  | none => exact ⟨.refl hm, trivial⟩
  | some a =>
    have hknown := D.knows_mono hb (seen_ref.1 ho)
    exact ⟨.revise hm (h _ _ hf) (hs _ _ _ hb (hm.object o) hf) (.inl hknown), trivial⟩

theorem reviseWith {f : Object → Object × Bool} (ho : D.Seen b o)
    (h : ∀ a, Object.Revision D.allows a (f a).1)
    (hs : ∀ b' a, D.Seen b' a → D.Seen b' (f a).1) :
    Routine D b Any fun _ => Engine.reviseWith o f := by
  refine .act _ fun m hb hm => ?_
  rw [Engine.reviseWith_apply]
  have hknown := D.knows_mono hb (seen_ref.1 ho)
  exact ⟨.revise hm (h _) (hs _ _ (hm.object o)) (.inl hknown), trivial⟩

theorem toWordBounded (hv : D.Seen b v) :
    Routine D b (fun _ n => n ≤ Number.maxWord) fun eng => eng.toWord v :=
  .map (.toNumber hv) fun _ n _ _ _ _ => n.modWord_le

theorem defineLength (ho : D.Seen b o) (hd : D.Seen b d) :
    Routine D b Any fun eng => eng.defineLength o d := by
  obtain ⟨hv, -, -⟩ := seen_descriptor.1 hd
  unfold Engine.defineLength
  cases hvalue : d.value with
  | none => exact .reviseWith ho (fun _ => .restrictLength d) fun _ _ h => h.restrictLength d
  | some v =>
    have hv : D.Seen b v := seen_some.1 (hvalue ▸ hv)
    refine .bind (.toWordBounded hv) fun b₁ length h₁ hlength => ?_
    refine .bind (.toNumber (hv.mono h₁)) fun b₂ n h₂ _ => ?_
    refine .ite (fun _ => .fail _) fun _ => .ite (fun _ => .done _) fun _ => ?_
    exact .reviseWith ((ho.mono h₁).mono h₂) (fun _ => .resize length _ hlength)
      fun _ _ h => h.resize _ _

theorem ordinaryDefine (ho : D.Seen b o) (hd : D.Seen b d) (hallowed : D.allows d) :
    Routine D b Any fun eng => eng.ordinaryDefine o k d := by
  have hrevise (b' : Nat) (hb : b ≤ b') :
      Routine D b' Any fun _ => Engine.reviseObject o (Engine.defined? k d) := by
    refine .reviseObject (ho.mono hb) (fun _ _ h => Engine.revision_defined? hallowed h)
      fun b'' a a' hb' ha h => ?_
    unfold Engine.defined? at h
    split at h
    · cases h
    · exact ha.defineStored? ((hd.mono hb).mono hb') h
  simp only [Engine.ordinaryDefine_eq]
  refine .bind (.kind o) fun b₁ kind h₁ _ => ?_
  cases kind with
  | array length writable =>
    exact .ite (fun _ => .defineLength (ho.mono h₁) (hd.mono h₁)) fun _ => hrevise b₁ h₁
  | _ => exact hrevise b₁ h₁

theorem ordinaryDelete (ho : D.Seen b o) :
    Routine D b Any fun _ => Engine.ordinaryDelete o k := by
  rw [Engine.ordinaryDelete_eq]
  refine .reviseObject ho (fun _ _ h => Engine.revision_deleted? h) fun b' a a' _ ha h => ?_
  unfold Engine.deleted? at h
  split at h
  · cases h
  · exact ha.delete? h

/-! ## Walks along the chain -/

theorem ordinaryHas (ho : D.Seen b o) : Routine D b Any fun eng => eng.ordinaryHas o k := by
  refine .bind (.getOwnProperty ho) fun b₁ found h₁ _ => ?_
  cases found with
  | some d => exact .done _
  | none =>
    refine .bind .heap fun b₂ h h₂ hh => ?_
    have hp := hh.prototypeOf o
    cases hparent : h.prototypeOf o with
    | none => exact .done _
    | some parent => exact .hasProperty (seen_some.1 (hparent ▸ hp))

theorem callGetter {getter : Option Ref} (hg : D.Seen b getter) (hr : D.Seen b receiver) :
    Routine D b D.Seen fun eng => eng.callGetter getter receiver := by
  cases getter with
  | none => exact .give seen_undefined
  | some f => exact .call (seen_object.2 (seen_ref.1 (seen_some.1 hg))) hr seen_nil

theorem callSetter {setter : Option Ref} (hs : D.Seen b setter) (hr : D.Seen b receiver)
    (hv : D.Seen b v) : Routine D b Any fun eng => eng.callSetter setter receiver v := by
  cases setter with
  | none => exact .done _
  | some f =>
    exact .bind (.call (seen_object.2 (seen_ref.1 (seen_some.1 hs))) hr
      (seen_cons.2 ⟨hv, seen_nil⟩)) fun _ _ _ _ => .done _

theorem ordinaryGet (ho : D.Seen b o) (hr : D.Seen b receiver) :
    Routine D b D.Seen fun eng => eng.ordinaryGet o k receiver := by
  refine .bind (.getOwnProperty ho) fun b₁ found h₁ hfound => ?_
  cases found with
  | some d =>
    obtain ⟨hvalue, hgetter, -⟩ := seen_descriptor.1 (seen_some.1 hfound)
    dsimp only
    cases hd : d.value with
    | some v => exact .give (seen_some.1 (hd ▸ hvalue))
    | none => exact .callGetter hgetter.join (hr.mono h₁)
  | none =>
    refine .bind .heap fun b₂ h h₂ hh => ?_
    have hp := hh.prototypeOf o
    cases hparent : h.prototypeOf o with
    | none => exact .give seen_undefined
    | some parent => exact .getFor (seen_some.1 (hparent ▸ hp)) ((hr.mono h₁).mono h₂)

theorem setOnReceiver (hr : D.Seen b receiver) (hv : D.Seen b v) :
    Routine D b Any fun eng => eng.setOnReceiver receiver k v := by
  cases receiver with
  | object r =>
    have hr : D.Seen b r := seen_ref.2 (seen_object.1 hr)
    refine .bind (.getOwnProperty hr) fun b₁ found h₁ _ => ?_
    cases found with
    | some d =>
      refine .ite (fun _ => .done _) fun _ => .defineOwnProperty (hr.mono h₁) ?_
      exact seen_descriptor.2 ⟨seen_some.2 (hv.mono h₁), seen_none, seen_none⟩
    | none => exact .createDataProperty (hr.mono h₁) (hv.mono h₁)
  | _ => exact .done _

theorem ordinarySet (ho : D.Seen b o) (hv : D.Seen b v) (hr : D.Seen b receiver) :
    Routine D b Any fun eng => eng.ordinarySet o k v receiver := by
  refine .bind (.getOwnProperty ho) fun b₁ found h₁ hfound => ?_
  have hv₁ := hv.mono h₁
  have hr₁ := hr.mono h₁
  cases found with
  | some d =>
    obtain ⟨-, -, hsetter⟩ := seen_descriptor.1 (seen_some.1 hfound)
    refine .ite (fun _ => .ite (fun _ => .done _) fun _ => .setOnReceiver hr₁ hv₁) fun _ => ?_
    exact .callSetter hsetter.join hr₁ hv₁
  | none =>
    refine .bind .heap fun b₂ h h₂ hh => ?_
    have hp := hh.prototypeOf o
    cases hparent : h.prototypeOf o with
    | none => exact .setOnReceiver (hr₁.mono h₂) (hv₁.mono h₂)
    | some parent => exact .setFor (seen_some.1 (hparent ▸ hp)) (hv₁.mono h₂) (hr₁.mono h₂)

theorem ordinarySetPrototypeOf {p : Option Ref} (ho : D.Seen b o) (hp : D.Seen b p) :
    Routine D b Any fun _ => Engine.ordinarySetPrototypeOf o p := by
  refine .act _ fun m hb hm => ?_
  rw [Engine.ordinarySetPrototypeOf_apply]
  split
  · exact ⟨.refl hm, trivial⟩
  · split
    · exact ⟨.refl hm, trivial⟩
    · next hext =>
      split
      · exact .refl hm
      · exact ⟨.refl hm, trivial⟩
      · next hfree =>
        have hknown := D.knows_mono hb (seen_ref.1 ho)
        exact ⟨.relink hm hknown (by simpa using hext) (hp.mono hb) hfree, trivial⟩

theorem preventExtensions (o : Ref) :
    Routine D b Any fun _ => Run.change fun m => { m with heap := m.heap.preventExtensions o } := by
  refine .act _ fun m _ hm => ⟨?_, trivial⟩
  have heq : m.heap.preventExtensions o = m.heap.modify (m.heap.root o) fun _ =>
      { m.heap.object (m.heap.root o) with extensible := false } := Heap.modify_congr rfl
  show D.Follows m (m.withHeap (m.heap.preventExtensions o))
  rw [heq]
  exact .revise hm .close (hm.object (m.heap.root o)) (.inr rfl)

theorem newSymbol (description : Option Text) :
    Routine D b Any fun _ => Engine.newSymbol description :=
  .act _ fun _ _ hm =>
    ⟨⟨D.keeps_change (.symbol description), hm.withHeap (Nat.le_refl _) hm.object,
      Nat.le_refl _⟩, trivial⟩

end Routine

end ObjectModel
