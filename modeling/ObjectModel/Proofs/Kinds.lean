import ObjectModel.Proofs.Moment

/-!
# What objects remain

An object never becomes one of another kind.  A proxy keeps its target and its traps, a function
its behaviour, a wrapper its value; arrays, maps and sets change only in what they hold.  An
iterator keeps its source, and its cursor moves on where the source is steady, that is where no
user code runs between the look at the cursor and its move.
-/

namespace ObjectModel

/-- No user code runs before a step over the source moves the cursor: it reads nothing but the heap
and the length of an array. -/
def IterationSource.Steady (h : Heap) : IterationSource → Prop
  | .arrayValues array => (h.object array).isArray = true
  | _ => True

/-- What can become of a kind. -/
inductive Kind.Onward (h : Heap) : Kind → Kind → Prop where
  | same (kind : Kind) : Onward h kind kind
  | array (length length' : Nat) (writable writable' : Bool) :
      Onward h (.array length writable) (.array length' writable')
  | map (data data' : MapData) : Onward h (.map data) (.map data')
  | set (data data' : SetData) : Onward h (.set data) (.set data')
  | cursor (source : IterationSource) {c c' : Cursor} (hle : source.Steady h → c ≤ c') :
      Onward h (.iterator source c) (.iterator source c')

namespace Kind.Onward

variable {h h' : Heap} {k₁ k₂ k₃ : Kind} {source : IterationSource} {c : Cursor}

theorem of_turn (ht : Kind.Turn k₁ k₂) : Onward h k₁ k₂ := by
  cases ht with
  | mapSet data k v => exact .map _ _
  | mapDelete data k => exact .map _ _
  | setAdd data v => exact .set _ _
  | setDelete data v => exact .set _ _
  | cursor source hle => exact .cursor source fun _ => hle

protected theorem trans (hsteady : ∀ source : IterationSource, source.Steady h → source.Steady h')
    (h₁ : Onward h k₁ k₂) (h₂ : Onward h' k₂ k₃) : Onward h k₁ k₃ := by
  cases h₁ with
  | same =>
    cases h₂ with
    | same => exact .same _
    | array => exact .array _ _ _ _
    | map => exact .map _ _
    | set => exact .set _ _
    | cursor source hle => exact .cursor source fun hs => hle (hsteady _ hs)
  | array => cases h₂ <;> exact .array _ _ _ _
  | map => cases h₂ <;> exact .map _ _
  | set => cases h₂ <;> exact .set _ _
  | cursor source hle =>
    cases h₂ with
    | same => exact .cursor source hle
    | cursor _ hle' => exact .cursor source fun hs => Cursor.le_trans (hle hs) (hle' (hsteady _ hs))

theorem isArray {o o' : Object} (hk : Onward h o.kind o'.kind) : o'.isArray = o.isArray := by
  obtain ⟨_, _, _, kind⟩ := o
  obtain ⟨_, _, _, kind'⟩ := o'
  cases hk <;> rfl

/-- An iterator stays one, over the same source. -/
theorem iterator (hk : Onward h (.iterator source c) k₂) :
    ∃ c', k₂ = .iterator source c' ∧ (source.Steady h → c ≤ c') := by
  cases hk with
  | same => exact ⟨c, rfl, fun _ => c.le_refl⟩
  | cursor _ hle => exact ⟨_, rfl, hle⟩

theorem proxy {target : Ref} {traps : TrapTable} (hk : Onward h (.proxy target traps) k₂) :
    k₂ = .proxy target traps := by
  cases hk
  rfl

theorem function {data : FunctionData} (hk : Onward h (.function data) k₂) :
    k₂ = .function data := by
  cases hk
  rfl

theorem ordinary (hk : Onward h .ordinary k₂) : k₂ = .ordinary := by
  cases hk
  rfl

/-- What changes its kind is no proxy and becomes none. -/
theorem proxy_cases {o o' : Object} (hk : Onward h o.kind o'.kind) :
    o'.kind = o.kind ∨ o.isProxy = false ∧ o'.isProxy = false := by
  obtain ⟨_, _, _, kind⟩ := o
  obtain ⟨_, _, _, kind'⟩ := o'
  cases hk with
  | same => exact .inl rfl
  | _ => exact .inr ⟨rfl, rfl⟩

end Kind.Onward

/-! ## Revisions -/

namespace Object

variable {o o' : Object} {k : Key} {d : Descriptor} {h : Heap}

theorem onward_defineElement? {i : Nat} (hd : o.defineElement? i d = some o') :
    Kind.Onward h o.kind o'.kind := by
  unfold defineElement? at hd
  cases hkind : o.kind with
  | array length writable =>
    rw [hkind] at hd
    dsimp only at hd
    split at hd
    · cases hd
    · obtain ⟨o₁, hdefine, rfl⟩ := Option.map_eq_some_iff.1 hd
      split
      · exact .array _ _ _ _
      · rw [kind_define? hdefine, hkind]
        exact .same _
  | _ =>
    rw [hkind] at hd
    rw [kind_define? hd, hkind]
    exact .same _

theorem onward_resize (o : Object) (length : Nat) (writable : Bool) :
    Kind.Onward h o.kind (o.resize length writable).1.kind := by
  unfold resize
  cases hkind : o.kind with
  | array old oldWritable =>
    dsimp only
    split
    · split
      · exact .array _ _ _ _
      · rw [hkind]
        exact .same _
    · split
      · unfold shrink
        split <;> exact .array _ _ _ _
      · rw [hkind]
        exact .same _
  | _ =>
    dsimp only
    rw [hkind]
    exact .same _

theorem onward_restrictLength (o : Object) (d : Descriptor) :
    Kind.Onward h o.kind (o.restrictLength d).1.kind := by
  unfold restrictLength
  cases hkind : o.kind with
  | array length writable =>
    dsimp only
    split
    · rw [hkind]
      exact .same _
    · split
      · rw [hkind]
        exact .same _
      · exact .array _ _ _ _
  | _ =>
    dsimp only
    rw [hkind]
    exact .same _

theorem Revision.onward {allows : Descriptor → Prop} (hr : Revision allows o o') :
    Kind.Onward h o.kind o'.kind := by
  cases hr with
  | define k d _ _ hd =>
    cases k with
    | index i => exact onward_defineElement? hd
    | _ =>
      rw [kind_define? hd]
      exact .same _
  | delete k _ hd =>
    rw [kind_delete? hd]
    exact .same _
  | restrictLength d => exact onward_restrictLength o d
  | resize length writable _ => exact onward_resize o length writable
  | close => exact .same _
  | turn ht => exact .of_turn ht

end Object

/-! ## Machines -/

/-- No object is lost or becomes one of another kind. -/
structure Machine.Onward (m m' : Machine) : Prop where
  grows : m.size ≤ m'.size
  kinds : ∀ r : Ref, r.index < m.size →
    Kind.Onward m.heap (m.heap.kind r) (m'.heap.kind r)

theorem Object.isArray_live {m : Machine} {r : Ref} (h : (m.heap.object r).isArray = true) :
    r.index < m.size := by
  rcases Nat.lt_or_ge r.index m.size with hr | hr
  · exact hr
  · rw [Heap.object_of_size_le hr] at h
    cases h

namespace Machine.Onward

variable {m m' m₁ m₂ m₃ : Machine} {r : Ref} {source : IterationSource}

theorem steady (h : m.Onward m') (hs : source.Steady m.heap) : source.Steady m'.heap := by
  cases source with
  | arrayValues array => exact (h.kinds array (Object.isArray_live hs)).isArray.trans hs
  | _ => trivial

/-- An iterator keeps its source, and its cursor moves on. -/
theorem iterator {c : Cursor} (h : m.Onward m') (hkind : m.heap.kind r = .iterator source c) :
    ∃ c', m'.heap.kind r = .iterator source c' ∧ (source.Steady m.heap → c ≤ c') :=
  (hkind ▸ h.kinds r (Engine.live_of_iterator hkind)).iterator

protected theorem refl (m : Machine) : m.Onward m := ⟨Nat.le_refl _, fun _ _ => .same _⟩

protected theorem trans (h : m₁.Onward m₂) (h' : m₂.Onward m₃) : m₁.Onward m₃ where
  grows := Nat.le_trans h.grows h'.grows
  kinds r hr := (h.kinds r hr).trans (fun _ => h.steady)
    (h'.kinds r (Nat.lt_of_lt_of_le hr h.grows))

theorem of_framed (h : m.Framed m') : m.Onward m' where
  grows := h.grows
  kinds r hr := by
    rw [h.kinds r hr]
    exact .same _

theorem of_modify {f : Object → Object}
    (hf : Kind.Onward m.heap (m.heap.kind r) (f (m.heap.object r)).kind) :
    m.Onward (m.withHeap (m.heap.modify r f)) where
  grows := Nat.le_of_eq (Heap.size_modify ..).symm
  kinds p _ := by
    show Kind.Onward m.heap (m.heap.kind p) ((m.heap.modify r f).object p).kind
    rw [Heap.object_modify]
    split
    · next hp =>
      rw [hp.1]
      exact hf
    · exact .same _

theorem change {knows : Nat → Ref → Prop} {allows : Descriptor → Prop}
    (h : m.Change knows allows m') : m.Onward m' := by
  cases h with
  | beside hheap _ _ _ =>
    refine ⟨?_, fun r _ => ?_⟩
    · exact Nat.le_of_eq (congrArg (fun h => h.objects.size) hheap.symm)
    · rw [hheap]
      exact .same _
  | allocate o _ _ => exact .of_framed (.allocate m o)
  | iteration proto next source _ _ => exact .of_framed (.newIterationObject proto next source m)
  | symbol description => exact ⟨Nat.le_refl _, fun _ _ => .same _⟩
  | revise r hrevision => exact .of_modify hrevision.onward
  | relink r p _ _ _ => exact .of_modify (.same _)
  | install _ => exact .of_framed (.install m)

end Machine.Onward

namespace Discipline

/-- No object is lost or becomes one of another kind. -/
def kinds : Discipline where
  knows := places.knows
  allows _ := True
  scripted := True
  prompt := True
  keeps := Machine.Onward
  knows_mono := places.knows_mono
  knows_fresh := places.knows_fresh
  knows_intrinsic := places.knows_intrinsic
  keeps_refl := .refl
  keeps_trans := .trans
  keeps_change := .change
  keeps_visit _ h := ⟨h.grows, h.kinds⟩
  keeps_settle {m s m' iterator array c c'} hkind harray hle hprompt hs hms hsm' := by
    obtain ⟨c₁, hkind₁, -⟩ := hms.iterator hkind
    obtain ⟨c₂, hkind₂, -⟩ := hsm'.iterator hkind₁
    refine ⟨?_, fun r hr => ?_⟩
    · rw [Engine.size_moveCursor]
      exact hsm'.grows
    by_cases hr' : r = iterator
    · subst hr'
      rw [hkind₁, Engine.kind_moveCursor hkind₂]
      refine .cursor _ fun hsteady => ?_
      -- over an array the read of its length is no moment of its own
      have hsame : s = m := by
        rcases hs with hsame | hsize
        · exact hsame
        · have hlive' : array.index < m.size := harray.elim id fun h => Nat.lt_of_lt_of_le h hsize
          exact (hprompt trivial ((hms.kinds array hlive').isArray.symm.trans hsteady)).1
      subst hsame
      rw [hkind] at hkind₁
      cases hkind₁
      exact hle
    · show Kind.Onward _ _ ((Run.final (Engine.moveCursor iterator c' m')).heap.object r).kind
      rw [Engine.object_moveCursor hr']
      exact hsm'.kinds r hr

theorem kinds_unsourced : kinds.Unsourced fun _ => True where
  keeps _ _ h := ⟨h.grows, h.kinds⟩
  property _ _ := trivial

end Discipline

/-- A machine in the history of a realm refers to existing objects only. -/
theorem Machine.Attained.soundKinds {m : Machine} (hm : m.Attained) :
    Discipline.kinds.Sound m ∧ Intrinsic.all.length ≤ m.size :=
  hm.sound trivial (fun _ => trivial) Discipline.kinds_unsourced (fun _ _ => .inl) (Nat.zero_le _)

/-- **Through the history of a realm no object is lost or becomes one of another kind.** -/
theorem onward_of_before {m m' : Machine} (hm : m.Attained)
    (h : Relation.ReflTransGen Machine.Before m m') : m.Onward m' :=
  (follows_of_before (D := .kinds) trivial (fun _ => trivial) Discipline.kinds_unsourced
    (fun _ _ => .inl) (Nat.zero_le _) hm h).keeps

end ObjectModel
