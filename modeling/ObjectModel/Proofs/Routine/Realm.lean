import ObjectModel.Engine.IterationObject
import ObjectModel.Proofs.Routine.Ordinary
import ObjectModel.Proofs.Routine.Proxy

/-!
# Routines of the realm

Making the realm and installing the extensions populate objects without any checks, which is no
revision that a discipline knows.  Installation is one change as a whole, so a discipline answers
for it once; what it refers to follows from the loose discipline, which keeps nothing else.
-/

namespace ObjectModel

variable {α β : Type}

instance : HasRefs Member :=
  ⟨fun m r => match m with
    | .value _ v => refers v r
    | .method _ _ _ | .getter _ _ _ _ => False⟩

/-! ## Runs that make and populate objects -/

/-- The run is made of steps that add an object or change one without making it another kind. -/
inductive Run.Furnishes : {α : Type} → Run α → Prop where
  | pure {α : Type} (a : α) : Furnishes (pure a)
  | bind {α β : Type} {x : Run α} {f : α → Run β} (hx : Furnishes x)
      (hf : ∀ a, Furnishes (f a)) : Furnishes (x >>= f)
  | allocate (o : Object) : Furnishes (Run.allocate o)
  | update (r : Ref) {f : Object → Object} (hf : ∀ o, (f o).kind = o.kind) :
      Furnishes (Run.update r f)

namespace Run.Furnishes

theorem newNative {name : String} {length : Nat} {f : Native} :
    Furnishes (Engine.newNative name length f) := .allocate _

theorem newMember (member : Member) : Furnishes (Engine.newMember member) := by
  cases member with
  | method name length f => exact .bind .newNative fun _ => .pure _
  | getter key name f configurable => exact .bind .newNative fun _ => .pure _
  | value name v => exact .pure _

theorem newMembers (ms : List Member) : Furnishes (Engine.newMembers ms) := by
  induction ms with
  | nil => exact .pure _
  | cons member rest ih => exact .bind (.newMember _) fun _ => .bind ih fun _ => .pure _

theorem addMembers {o : Ref} {ms : List Member} : Furnishes (Engine.addMembers o ms) :=
  .bind (.newMembers ms) fun _ => .update _ fun _ => rfl

theorem addIntrinsicMembers {select : Intrinsic → List Member} {is : List Intrinsic} :
    Furnishes (Engine.addIntrinsicMembers select is) := by
  induction is with
  | nil => exact .pure _
  | cons i rest ih =>
    simp only [Engine.addIntrinsicMembers]
    cases (select i).isEmpty with
    | true => exact ih
    | false => exact .bind .addMembers fun _ => ih

theorem newIterationObject {proto : Ref} {next : Symbol} {source : IterationSource} :
    Furnishes (Engine.newIterationObject proto next source) :=
  .bind (.allocate _) fun _ => .bind (.allocate _) fun _ =>
    .bind (.update _ fun _ => rfl) fun _ => .pure _

theorem addExtensions (x : Extensions) : Furnishes (Engine.addExtensions x) :=
  .bind .addIntrinsicMembers fun _ => .bind (.allocate _) fun _ =>
    .bind .addMembers fun _ => .bind (.update _ fun _ => rfl) fun _ => .bind .addMembers fun _ =>
      .bind .addMembers fun _ => .update _ fun _ => rfl

variable {R : Machine → Machine → Prop} (hrefl : ∀ m, R m m)
  (htrans : ∀ m₁ m₂ m₃, R m₁ m₂ → R m₂ m₃ → R m₁ m₃)
  (hallocate : ∀ m o, R m (m.withHeap (m.heap.allocate o).2))
  (hupdate : ∀ m r f, (∀ o : Object, (f o).kind = o.kind) → R m (m.withHeap (m.heap.modify r f)))

include hrefl htrans hallocate hupdate

/-- **Such a run gives a result and keeps what its steps keep.** -/
theorem keeps {x : Run α} (h : x.Furnishes) (m : Machine) : ∃ a m', x m = .ok a m' ∧ R m m' := by
  induction h generalizing m with
  | pure a => exact ⟨a, m, rfl, hrefl m⟩
  | bind _ _ ihx ihf =>
    obtain ⟨a, m₁, hx, h₁⟩ := ihx m
    obtain ⟨b, m₂, hf, h₂⟩ := ihf a m₁
    exact ⟨b, m₂, (Run.bind_ok hx).trans hf, htrans _ _ _ h₁ h₂⟩
  | allocate o => exact ⟨_, _, rfl, hallocate m o⟩
  | update r hf => exact ⟨_, _, rfl, hupdate m r _ hf⟩

end Run.Furnishes

/-! ## Runs that leave the state of serialization alone

These runs always give a result, and no object becomes one of another kind. -/

/-- The objects that existed are of the kinds that they were, and so are the options and the state
of serialization. -/
structure Machine.Framed (m m' : Machine) : Prop where
  source : m'.source = m.source
  options : m'.options = m.options
  grows : m.size ≤ m'.size
  kinds : ∀ r : Ref, r.index < m.size → m'.heap.kind r = m.heap.kind r

namespace Machine.Framed

protected theorem refl (m : Machine) : m.Framed m := ⟨rfl, rfl, Nat.le_refl _, fun _ _ => rfl⟩

protected theorem trans {m₁ m₂ m₃ : Machine} (h : m₁.Framed m₂) (h' : m₂.Framed m₃) :
    m₁.Framed m₃ where
  source := h'.source.trans h.source
  options := h'.options.trans h.options
  grows := Nat.le_trans h.grows h'.grows
  kinds r hr := (h'.kinds r (Nat.lt_of_lt_of_le hr h.grows)).trans (h.kinds r hr)

protected theorem allocate (m : Machine) (o : Object) :
    m.Framed (m.withHeap (m.heap.allocate o).2) := by
  refine ⟨rfl, rfl, ?_, fun p hp => congrArg Object.kind (m.heap.object_allocate_of_lt o hp)⟩
  rw [Machine.size_withHeap, Heap.size_allocate]
  exact Nat.le_succ _

protected theorem modify (m : Machine) (r : Ref) (f : Object → Object)
    (hf : ∀ o, (f o).kind = o.kind) : m.Framed (m.withHeap (m.heap.modify r f)) := by
  refine ⟨rfl, rfl, Nat.le_of_eq (Heap.size_modify ..).symm, fun p _ => ?_⟩
  show ((m.heap.modify r f).object p).kind = (m.heap.object p).kind
  rw [Heap.object_modify]
  split
  · next h => rw [hf, h.1]
  · rfl

end Machine.Framed

def Run.Frames (x : Run α) : Prop := ∀ m, ∃ a m', x m = .ok a m' ∧ m.Framed m'

theorem Run.Furnishes.frames {x : Run α} (h : x.Furnishes) : x.Frames :=
  h.keeps .refl (fun _ _ _ => .trans) .allocate .modify

namespace Run.Frames

protected theorem bind {x : Run α} {f : α → Run β} (hx : Frames x) (hf : ∀ a, Frames (f a)) :
    Frames (x >>= f) := by
  intro m
  obtain ⟨a, m₁, hx, h₁⟩ := hx m
  obtain ⟨b, m₂, hf, h₂⟩ := hf a m₁
  exact ⟨b, m₂, (Run.bind_ok hx).trans hf, h₁.trans h₂⟩

theorem change {f : Machine → Machine} (hs : ∀ m, (f m).source = m.source)
    (ho : ∀ m, (f m).options = m.options) (hh : ∀ m, (f m).heap = m.heap) :
    Frames (Run.change f) := by
  intro m
  refine ⟨(), f m, rfl, hs m, ho m, ?_, fun r _ => by rw [hh m]⟩
  exact Nat.le_of_eq (congrArg (fun h => h.objects.size) (hh m).symm)

theorem newSymbol {description : Option Text} : Frames (Engine.newSymbol description) :=
  fun _ => ⟨_, _, rfl, rfl, rfl, Nat.le_refl _, fun _ _ => rfl⟩

theorem install : Frames Engine.install := by
  intro m
  rw [Engine.install, Run.bind_apply]
  simp only [Run.machine]
  have hadd : Frames (do
      let next ← Engine.newSymbol (some "next")
      let prototype ← Engine.newIterationObject Intrinsic.objectPrototype.ref next (.list #[])
      let constructor ← Engine.newNative "Iterator" 2 .iteratorConstructor
      let x : Extensions := ⟨next, prototype, constructor⟩
      Run.change fun m => { m with extensions := some x }
      Engine.addExtensions x
      Run.emit .extensionsInstalled
      pure x) :=
    .bind .newSymbol fun _ => .bind Furnishes.newIterationObject.frames fun _ =>
      .bind Furnishes.newNative.frames fun _ =>
        .bind (.change (fun _ => rfl) (fun _ => rfl) fun _ => rfl) fun x =>
          .bind (Furnishes.addExtensions _).frames fun _ =>
            .bind (.change (fun _ => rfl) (fun _ => rfl) fun _ => rfl) fun _ =>
              (Furnishes.pure _).frames
  cases m.extensions with
  | some x => exact ⟨x, m, rfl, .refl m⟩
  | none => exact hadd m

theorem start : Frames Engine.start := by
  refine .bind Furnishes.addIntrinsicMembers.frames fun _ =>
    .bind (fun m => ⟨m, m, rfl, .refl m⟩) fun m => ?_
  have hemit (e : Event) : Frames (Run.emit e) :=
    .change (fun _ => rfl) (fun _ => rfl) fun _ => rfl
  have hrest : Frames (do
      unless m.options.withoutExtensions do let _ ← Engine.install
      Run.emit .started) := by
    cases m.options.withoutExtensions with
    | true => exact hemit _
    | false => exact .bind .install fun _ => hemit _
  cases hprint : m.options.printInternals with
  | true =>
    simp only [hprint, if_true]
    exact .bind (hemit _) fun _ => hrest
  | false =>
    simp only [hprint]
    exact hrest

end Run.Frames

namespace Machine.Framed

theorem of_frames {x : Run α} (hx : Run.Frames x) (m : Machine) : m.Framed (Run.final (x m)) := by
  obtain ⟨a, m', hrun, hframed⟩ := hx m
  rw [hrun]
  exact hframed

theorem newIterationObject (proto : Ref) (next : Symbol) (source : IterationSource) (m : Machine) :
    m.Framed (Run.final (Engine.newIterationObject proto next source m)) :=
  .of_frames Run.Furnishes.newIterationObject.frames m

theorem install (m : Machine) : m.Framed (Run.final (Engine.install m)) := .of_frames .install m

end Machine.Framed

/-! ## The loose discipline -/

namespace Discipline

/-- Only what is referred to matters. -/
def loose (D : Discipline) : Discipline where
  base := D.base
  knows := D.knows
  allows _ := True
  scripted := True
  prompt := False
  keeps _ _ := True
  knows_mono := D.knows_mono
  knows_fresh := D.knows_fresh
  knows_intrinsic := D.knows_intrinsic
  keeps_refl _ := trivial
  keeps_trans _ _ := trivial
  keeps_change _ := trivial
  keeps_visit _ _ := trivial
  keeps_settle _ _ _ _ _ _ _ := trivial

variable {D : Discipline} {b : Nat}

@[simp]
theorem seen_method {name : String} {length : Nat} {f : Native} :
    D.Seen b (Member.method name length f) := fun _ h => h.elim

@[simp]
theorem seen_getter {key : Key} {name : String} {f : Native} {configurable : Bool} :
    D.Seen b (Member.getter key name f configurable) := fun _ h => h.elim

@[simp]
theorem seen_member {name : String} {v : Value} :
    D.Seen b (Member.value name v) ↔ D.Seen b v := Iff.rfl

theorem Meets.ofLoose {Q : Nat → α → Prop} {m : Machine} {r : EStateM.Result Halt Machine α}
    (h : D.loose.Meets Q m r) (hk : D.keeps m (Run.final r)) : D.Meets Q m r := by
  match r with
  | .ok a m' => exact ⟨⟨hk, h.1.sound, h.1.grows⟩, h.2⟩
  | .error (.thrown v) m' => exact ⟨⟨hk, h.1.sound, h.1.grows⟩, h.2⟩
  | .error .outOfFuel m' => exact ⟨hk, h.sound, h.grows⟩

end Discipline

namespace Routine

open Discipline

variable {D : Discipline} {b : Nat} {Q : Nat → α → Prop}

/-- A routine that asks the engine nothing runs by itself. -/
theorem runs {x : Run α} (h : Routine D b Q fun _ => x) {m : Machine} (hb : b ≤ m.size)
    (hm : D.Sound m) : D.Meets Q m (x m) := by
  have hidle : Engine.Meets D ⟨0, fun _ => Run.outOfFuel⟩ :=
    ⟨fun _ _ _ hm => .refl hm, fun _ _ _ _ => .inr ⟨_, rfl⟩⟩
  exact h.meets hidle hb hm

/-- The loose discipline has no objection to any change of an object. -/
theorem updateFreely {r : Ref} {f : Object → Object}
    (hf : ∀ b' o, b ≤ b' → D.Seen b' o → D.Seen b' (f o)) :
    Routine D.loose b Any fun _ => Run.update r f :=
  .act _ fun _ hb hm =>
    ⟨⟨trivial, Sound.modify (D := D) hm (hf _ _ hb (Sound.object (D := D) hm r)),
      Nat.le_of_eq (Heap.size_modify ..).symm⟩, trivial⟩

/-! ## Members -/

theorem newNative (name : String) (length : Nat) (f : Native) :
    Routine D b D.Seen fun _ => Engine.newNative name length f :=
  .newFunction seen_none seen_native _ _

theorem newMember {member : Member} (h : D.Seen b member) :
    Routine D b D.Seen fun _ => Engine.newMember member := by
  cases member with
  | method name length f =>
    exact .map (.newNative name length f) fun _ _ _ hf _ h₂ =>
      seen_pair.2 ⟨seen_key, seen_hidden.2 (seen_object.2 (seen_ref.1 (hf.mono h₂)))⟩
  | getter key name f configurable =>
    exact .map (.newNative name 0 f) fun _ _ _ hf _ h₂ =>
      seen_pair.2 ⟨seen_key, seen_accessor.2 ⟨seen_some.2 (hf.mono h₂), seen_none⟩⟩
  | value name v => exact .give (seen_pair.2 ⟨seen_key, seen_hidden.2 h⟩)

theorem newMembers {ms : List Member} (h : D.Seen b ms) :
    Routine D b D.Seen fun _ => Engine.newMembers ms := by
  induction ms generalizing b with
  | nil => exact .give seen_nil
  | cons member rest ih =>
    obtain ⟨hmember, hrest⟩ := seen_cons.1 h
    exact .bind (.newMember hmember) fun _ _ h₁ hp => .consSeen hp (ih (hrest.mono h₁))

theorem addMembers {o : Ref} {ms : List Member} (h : D.Seen b ms) :
    Routine D.loose b Any fun _ => Engine.addMembers o ms :=
  .bind (.newMembers h) fun _ _ _ hps =>
    .updateFreely fun _ _ hb ho => ho.populate (hps.mono hb) true

theorem addIntrinsicMembers {select : Intrinsic → List Member} (h : ∀ i, D.Seen b (select i))
    (is : List Intrinsic) :
    Routine D.loose b Any fun _ => Engine.addIntrinsicMembers select is := by
  induction is generalizing b with
  | nil => exact .done _
  | cons i rest ih =>
    simp only [Engine.addIntrinsicMembers]
    cases (select i).isEmpty with
    | true => exact ih h
    | false => exact .bind (.addMembers (h i)) fun _ _ h₁ _ => ih fun j => (h j).mono h₁

theorem seen_members (i : Intrinsic) : D.Seen b i.members := by
  cases i <;> simp [Intrinsic.members, Intrinsic.errorMembers]

theorem seen_extensionMembers (i : Intrinsic) : D.Seen b i.extensionMembers := by
  cases i <;> simp [Intrinsic.extensionMembers]

/-! ## The extensions -/

theorem newIterationObjectLoosely {proto : Ref} {source : IterationSource}
    (hp : D.Seen b proto) (hs : D.Seen b source) (next : Symbol) :
    Routine D.loose b D.Seen fun _ => Engine.newIterationObject proto next source := by
  refine .bind (.allocate (seen_new.2 ⟨seen_some.2 hp, hs⟩) (Object.regular_new _ trivial) nofun)
    fun b₁ o h₁ ho => ?_
  refine .bind (.newFunction seen_none ho _ _) fun b₂ f h₂ hf => ?_
  refine .bind (.updateFreely fun b₃ object h₃ hobject => ?_) fun _ _ h₃ _ =>
    .give ((ho.mono h₂).mono h₃)
  refine hobject.withProperties (Seen.insert (seen_whole.1 hobject).2.1 seen_key ?_)
  exact seen_data.2 (seen_object.2 (seen_ref.1 (hf.mono h₃)))

theorem newIterationObject {proto : Ref} {source : IterationSource} (hp : D.Seen b proto)
    (hs : D.Seen b source) (next : Symbol) :
    Routine D b D.Seen fun _ => Engine.newIterationObject proto next source :=
  .act _ fun _ hb hm =>
    .ofLoose ((newIterationObjectLoosely (D := D) hp hs next).runs hb hm)
      (D.keeps_change (.iteration proto next source (seen_ref.1 (hp.mono hb)) (hs.mono hb)))

theorem addExtensions {x : Extensions} (hx : D.Seen b x) :
    Routine D.loose b Any fun _ => Engine.addExtensions x := by
  have hprototype : D.Seen b x.iteratorPrototype := fun r hr => hx r (Or.inl hr)
  have hconstructor : D.Seen b x.iteratorConstructor := fun r hr => hx r (Or.inr hr)
  refine .bind (.addIntrinsicMembers seen_extensionMembers _) fun b₁ _ h₁ _ => ?_
  refine .bind (.newObject (seen_some.2 seen_intrinsic)) fun b₂ proxy h₂ hproxy => ?_
  refine .bind (.addMembers (D := D) (by simp)) fun b₃ _ h₃ _ => ?_
  have hp := ((hprototype.mono h₁).mono h₂).mono h₃
  have hc := ((hconstructor.mono h₁).mono h₂).mono h₃
  refine .bind (.updateFreely (D := D) fun b₄ o h₄ ho => ho.withProperties ?_) fun b₄ _ h₄ _ => ?_
  · refine Seen.insert (seen_whole.1 ho).2.1 seen_key ?_
    exact seen_data.2 (seen_object.2 (seen_ref.1 (hp.mono h₄)))
  have hp := hp.mono h₄
  have hc := hc.mono h₄
  have hproxy : D.Seen b₄ proxy := Seen.mono (D := D) (Seen.mono (D := D) hproxy h₃) h₄
  have hglobal : D.Seen b₄ [Member.value "Proxy" (.object proxy),
      .value "Iterator" (.object x.iteratorConstructor)] := by
    simp [seen_ref.1 hproxy, seen_ref.1 hc]
  refine .bind (.addMembers (D := D) (by simp [seen_ref.1 hc])) fun b₅ _ h₅ _ => ?_
  refine .bind (.addMembers (D := D) (hglobal.mono h₅)) fun b₆ _ h₆ _ => ?_
  refine .updateFreely (D := D) fun b₇ o h₇ ho => ?_
  exact seen_whole.2
    ⟨seen_some.2 (((hp.mono h₅).mono h₆).mono h₇), (seen_whole.1 ho).2⟩

theorem installLoosely : Routine D.loose b D.Seen fun _ => Engine.install := by
  refine .bind .machine fun b₁ m _ hm => ?_
  have hextensions : D.Seen b₁ m.extensions := fun r hr => hm r (Or.inr (Or.inl hr))
  cases hx : m.extensions with
  | some x => exact .give (seen_some.1 (hx ▸ hextensions))
  | none =>
    refine .bind (.newSymbol _) fun b₂ next _ _ => ?_
    have hempty : D.Seen b₂ (IterationSource.list #[]) := seen_nil (α := Value)
    refine .bind (.newIterationObjectLoosely seen_intrinsic hempty next) fun b₃ p h₃ hp => ?_
    refine .bind (.newNative _ _ _) fun b₄ c h₄ hc => ?_
    have hx : D.Seen b₄ (⟨next, p, c⟩ : Extensions) := fun r hr =>
      hr.elim (hp.mono h₄ r) (hc r)
    refine .bind (Q := Any) (.act _ fun m hb hm => ⟨⟨trivial, ?_, Nat.le_refl _⟩, trivial⟩)
      fun b₅ _ h₅ _ => ?_
    · refine ⟨hm.1, ?_⟩
      rintro r (hr | ⟨x, hx', hr⟩ | hr)
      · exact hm.2 r (Or.inl hr)
      · cases hx'
        exact hx.mono hb r hr
      · exact hm.2 r (Or.inr (Or.inr hr))
    refine .bind (.addExtensions (D := D) (hx.mono h₅)) fun b₆ _ h₆ _ => ?_
    exact .bind (.emit _) fun _ _ h₇ _ =>
      .give (Seen.mono (D := D) (Seen.mono (D := D) (hx.mono h₅) h₆) h₇)

theorem install : Routine D b D.Seen fun _ => Engine.install := by
  refine .act _ fun m hb hm => .ofLoose (installLoosely.runs hb hm) ?_
  cases hx : m.extensions with
  | none => exact D.keeps_change (.install hx)
  | some x =>
    have hrun : Engine.install m = .ok x m := by
      rw [Engine.install, Run.bind_apply]
      simp only [Run.machine, hx]
      rfl
    rw [hrun]
    exact D.keeps_refl m

/-! ## Iteration objects -/

theorem newEnumerable {source : IterationSource} (hs : D.Seen b source) :
    Routine D b D.Seen fun _ => Engine.newEnumerable source := by
  refine .bind .install fun b₁ x h₁ hx => ?_
  have hp : D.Seen b₁ x.iteratorPrototype := fun r hr => hx r (Or.inl hr)
  refine .bind (.newIterationObject hp (hs.mono h₁) _) fun b₂ o _ ho =>
    .newProxy (fun _ => ho) nofun nofun

theorem iterationSource {v : Value} (hv : D.Seen b v) (keysOnly : Bool) :
    Routine D b D.Seen fun eng => eng.iterationSource v keysOnly := by
  refine .bind .heap fun b₁ h h₁ _ => .ite (fun _ => ?_) fun _ => ?_
  · refine .bind (.toObject (hv.mono h₁)) fun b₂ o h₂ ho => ?_
    refine .map (.lengthOfArrayLike ho) fun b₃ length h₃ _ b₄ h₄ => ?_
    cases keysOnly with
    | true => exact nofun
    | false => exact (ho.mono h₃).mono h₄
  · refine .bind (.toObject (hv.mono h₁)) fun b₂ o h₂ ho => ?_
    refine .map (.enumerableOwnKeys ho) fun b₃ keys h₃ _ b₄ h₄ => ?_
    cases keysOnly <;> exact (ho.mono h₃).mono h₄

theorem newIteration {v : Value} (hv : D.Seen b v) (keysOnly : Bool) :
    Routine D b D.Seen fun eng => eng.newIteration v keysOnly :=
  .bind (.iterationSource hv keysOnly) fun _ _ _ hs => .newEnumerable hs

theorem isIterationObject {v : Value} (hv : D.Seen b v) :
    Routine D b Any fun eng => eng.isIterationObject v := by
  cases v with
  | object o =>
    exact .bind .install fun _ _ h₁ _ =>
      .hasOwnProperty ((seen_ref.2 (seen_object.1 hv) : D.Seen b o).mono h₁)
  | _ => exact .done _

theorem iterationNext {v : Value} (hv : D.Seen b v) :
    Routine D b D.Seen fun eng => eng.iterationNext v := by
  refine .bind (.isIterationObject hv) fun b₁ found h₁ _ => .ite (fun _ => ?_) fun _ => .fail _
  exact .bind .install fun _ _ h₂ _ => .invoke ((hv.mono h₁).mono h₂) seen_nil

end Routine

end ObjectModel
