import Mathlib.Logic.Relation
import ObjectModel.Proofs.Integrity
import ObjectModel.Proofs.Literals

/-!
# Source text tells values apart

A tree is a value that is put together, without cycles, from primitive values, arrays with
elements and holes, and plain objects; a part may be held in several places.  Two trees, of one
machine or of two, are alike when they have the same shape: the same kinds, keys in the same
order, lengths and holes, and primitive values that are the same up to the sign of zero.

On a tree no composite is met inside itself, so every part is written out, and serialization gives
two trees one text exactly when they are alike.
-/

namespace ObjectModel

open Text

/-! ## Trees -/

/-- A primitive value that has a literal. -/
def Value.IsPlain (v : Value) : Prop := v.IsLiteral fun _ => False

/-- Related options are both there or both missing. -/
theorem rel_none_iff {α β : Type} {R : α → β → Prop} {a : Option α} {b : Option β}
    (h : Option.Rel R a b) : a = none ↔ b = none := by
  cases h <;> simp

/-- The value of an own data property is in its content. -/
theorem Object.data?_of_content {o : Object} {k : Key} {p : Property} {v : Value} {w : Bool}
    (hfind : o.properties.find? k = some p) (hcontent : p.content = .data v w) :
    o.data? k = some v := by
  obtain ⟨content, e, c⟩ := p
  cases hcontent
  rw [data?, hfind]

namespace Heap

/-- The value is put together, in finitely many steps, from primitive values, arrays and plain
objects.  An array has elements and holes; the properties of an object are enumerable and have
names other than that of the source method. -/
inductive Tree (h : Heap) : Value → Prop
  | primitive {v : Value} : v.IsPlain → Tree h v
  | array {r : Ref} {length : Nat} {writable : Bool} :
    (h.object r).kind = .array length writable → length ≤ Number.maxWord →
    (h.object r).prototype = some Intrinsic.arrayPrototype.ref →
    (∀ k p, (h.object r).properties.find? k = some p →
      (∃ i < length, k = .index i) ∧ ∃ v w, p.content = .data v w) →
    (∀ k v, (h.object r).data? k = some v → Tree h v) → Tree h (.object r)
  | object {r : Ref} :
    (h.object r).kind = .ordinary →
    (h.object r).prototype = some Intrinsic.objectPrototype.ref →
    (∀ k p, (h.object r).properties.find? k = some p →
      k.Named ∧ k ≠ "toSource" ∧ p.enumerable = true ∧ ∃ v w, p.content = .data v w) →
    (∀ k v, (h.object r).data? k = some v → Tree h v) → Tree h (.object r)

/-- The values have the same shape. -/
inductive Alike (h h' : Heap) : Value → Value → Prop
  | primitive {v v' : Value} : v.IsPlain → v.sameValueZero v' = true → Alike h h' v v'
  | array {r r' : Ref} {length : Nat} {writable writable' : Bool} :
    (h.object r).kind = .array length writable → (h'.object r').kind = .array length writable' →
    (∀ i < length, (h.object r).data? (.index i) = none ↔ (h'.object r').data? (.index i) = none) →
    (∀ i v v', (h.object r).data? (.index i) = some v →
      (h'.object r').data? (.index i) = some v' → Alike h h' v v') →
    Alike h h' (.object r) (.object r')
  | object {r r' : Ref} :
    (h.object r).kind = .ordinary → (h'.object r').kind = .ordinary →
    (h.object r).ownKeys = (h'.object r').ownKeys →
    (∀ k v v', (h.object r).data? k = some v → (h'.object r').data? k = some v' →
      Alike h h' v v') →
    Alike h h' (.object r) (.object r')

variable {h h' : Heap} {v v' : Value} {r r' : Ref} {path path' : List Ref}

/-! ### A tree is plain -/

theorem Tree.isLiteral (hv : h.Tree v) : v.IsLiteral fun r => h.Tree (.object r) := by
  cases v with
  | object r => exact hv
  | symbol s =>
    cases hv with
    | primitive hplain => exact hplain
  | undefined | null | bool | number | text => trivial

theorem Tree.composite (hr : h.Tree (.object r)) :
    h.Composite (fun r => h.Tree (.object r)) r := by
  have hname : ("toSource" : Key) = .name (ofString "toSource") := by decide
  cases hr with
  | primitive hplain => exact hplain.elim
  | array hkind hlength hproto hproperties hparts =>
    refine ⟨.inr ⟨_, _, hkind, hlength, hproto⟩, fun k p hfind => ?_, ?_⟩
    · obtain ⟨-, v, w, hcontent⟩ := hproperties k p hfind
      exact ⟨v, w, hcontent, (hparts k v (Object.data?_of_content hfind hcontent)).isLiteral⟩
    · rw [Option.eq_none_iff_forall_ne_some]
      intro p hfind
      obtain ⟨⟨i, -, hkey⟩, -⟩ := hproperties _ p hfind
      rw [hname] at hkey
      cases hkey
  | object hkind hproto hproperties hparts =>
    refine ⟨.inl ⟨hkind, hproto⟩, fun k p hfind => ?_, ?_⟩
    · obtain ⟨-, -, -, v, w, hcontent⟩ := hproperties k p hfind
      exact ⟨v, w, hcontent, (hparts k v (Object.data?_of_content hfind hcontent)).isLiteral⟩
    · rw [Option.eq_none_iff_forall_ne_some]
      intro p hfind
      exact absurd rfl (hproperties _ p hfind).2.1

theorem Tree.part (hr : h.Tree (.object r)) {k : Key} (hv : (h.object r).data? k = some v) :
    h.Tree v := by
  cases hr with
  | primitive hplain => exact hplain.elim
  | array _ _ _ _ hparts => exact hparts k v hv
  | object _ _ _ hparts => exact hparts k v hv

/-! ### A tree has no cycles -/

/-- The first composite is a part of the second. -/
def PartOf (h : Heap) (s r : Ref) : Prop := ∃ k, (h.object r).data? k = some (.object s)

theorem Tree.acc (hv : h.Tree v) : ∀ r, v = .object r → Acc h.PartOf r := by
  induction hv with
  | primitive hplain =>
    rintro r rfl
    exact hplain.elim
  | array _ _ _ _ _ ih =>
    rintro r hr
    cases hr
    exact .intro _ fun s ⟨k, hk⟩ => ih k _ hk s rfl
  | object _ _ _ _ ih =>
    rintro r hr
    cases hr
    exact .intro _ fun s ⟨k, hk⟩ => ih k _ hk s rfl

theorem Tree.not_partOf_self (hr : h.Tree (.object r)) : ¬ Relation.TransGen h.PartOf r r := by
  have hacc := (hr.acc r rfl).transGen
  clear hr
  induction hacc with
  | intro s _ ih => exact fun hself => ih s hself hself

/-- Every composite on the path has the value inside of it. -/
def Encloses (h : Heap) (path : List Ref) (v : Value) : Prop :=
  ∀ p ∈ path, ∀ r, v = .object r → Relation.TransGen h.PartOf r p

theorem encloses_nil : h.Encloses [] v := nofun

theorem Encloses.part (hpath : h.Encloses path (.object r)) {k : Key}
    (hv : (h.object r).data? k = some v) : h.Encloses (r :: path) v := by
  rintro p hp s rfl
  have hpart : h.PartOf s r := ⟨k, hv⟩
  rcases List.mem_cons.1 hp with rfl | hp
  · exact .single hpart
  · exact .head hpart (hpath p hp r rfl)

/-- A composite of a tree is written out wherever it is met. -/
theorem Tree.render_eq (hr : h.Tree (.object r)) (hpath : h.Encloses path (.object r)) :
    h.render path (.object r) = (h.object r).literal path.isEmpty (h.render (r :: path)) :=
  render_offPath (fun hmem => hr.not_partOf_self (hpath r hmem r rfl)) hr.composite.live

/-! ## Primitive values -/

/-- The form of a value's literal; a symbol has none of its own. -/
def form (h : Heap) : Value → Form
  | .undefined | .symbol _ => .undefined
  | .null => .null
  | .bool _ => .bool
  | .number _ => .number
  | .text _ => .text
  | .object r => if (h.object r).isArray then .array else .object

theorem hasForm_render_plain (hv : v.IsPlain) : (h.render path v).HasForm (h.form v) := by
  intro rest
  cases v with
  | undefined | null | text => rw [render]; rfl
  | bool b => rw [render]; cases b <;> rfl
  | number n => rw [render]; exact hasForm_toText n rest
  | symbol | object => exact hv.elim

theorem agreeOnlyIf_render_plain (hv : v.IsPlain) (hv' : v'.IsPlain) :
    AgreeOnlyIf (v.sameValueZero v' = true) (h.render path v) (h'.render path' v') := by
  by_cases hform : h.form v = h'.form v'
  · cases v with
    | undefined =>
      cases v' with
      | undefined =>
        rw [render, render]
        exact fun _ _ _ _ heq => ⟨rfl, List.append_cancel_left heq⟩
      | symbol | object => exact hv'.elim
      | null | bool | number | text => cases hform
    | null =>
      cases v' with
      | null =>
        rw [render, render]
        exact fun _ _ _ _ heq => ⟨rfl, List.append_cancel_left heq⟩
      | symbol | object => exact hv'.elim
      | undefined | bool | number | text => cases hform
    | bool b =>
      cases v' with
      | bool b' =>
        rw [render, render]
        refine (agreeOnlyIf_plain ?_ ?_).mono fun heq => ?_
        · cases b <;> exact closes_of_all (by decide)
        · cases b' <;> exact closes_of_all (by decide)
        · revert heq
          cases b <;> cases b' <;> decide
      | symbol | object => exact hv'.elim
      | undefined | null | number | text => cases hform
    | number n =>
      cases v' with
      | number n' =>
        rw [render, render]
        exact (agreeOnlyIf_plain (closes_toText n) (closes_toText n')).mono Number.toText_eq_iff.1
      | symbol | object => exact hv'.elim
      | undefined | null | bool | text => cases hform
    | text t =>
      cases v' with
      | text t' =>
        rw [render, render]
        refine (agreeOnlyIf_quote t t').mono fun heq => ?_
        simp [Value.sameValueZero, heq]
      | symbol | object => exact hv'.elim
      | undefined | null | bool | number => cases hform
    | symbol | object => exact hv.elim
  · exact agreeOnlyIf_of_form_ne (hasForm_render_plain hv) (hasForm_render_plain hv') hform

theorem render_eq_of_sameValueZero (hv : v.IsPlain) (hsame : v.sameValueZero v' = true) :
    h.render path v = h'.render path' v' := by
  have hbeq (heq : v.sameValueZero v' = (v == v')) : v = v' := eq_of_beq (heq.symm.trans hsame)
  cases v with
  | number n =>
    cases v' with
    | number n' =>
      rw [render, render]
      exact Number.toText_eq_iff.2 hsame
    | _ => cases hsame
  | symbol | object => exact hv.elim
  | undefined | null | bool | text =>
    rw [← hbeq rfl, render, render]

/-! ## Composites -/

theorem form_array {length : Nat} {writable : Bool}
    (hkind : (h.object r).kind = .array length writable) : h.form (.object r) = .array :=
  if_pos (by simp [Object.isArray, hkind])

theorem form_ordinary (hkind : (h.object r).kind = .ordinary) : h.form (.object r) = .object :=
  if_neg (by simp [Object.isArray, hkind])

theorem form_plain (hv : v.IsPlain) : h.form v ≠ .array ∧ h.form v ≠ .object := by
  cases v with
  | symbol | object => exact hv.elim
  | _ => exact ⟨nofun, nofun⟩

/-- An array is written as its elements and holes up to its length. -/
theorem Tree.render_array (hr : h.Tree (.object r)) (hpath : h.Encloses path (.object r))
    {length : Nat} {writable : Bool} (hkind : (h.object r).kind = .array length writable) :
    h.render path (.object r) = arrayLiteral ((List.range length).map fun i =>
      ((h.object r).data? (.index i)).map (h.render (r :: path))) := by
  rw [hr.render_eq hpath, Object.literal, hkind]

/-- The own properties of a plain object of a tree. -/
theorem Tree.own (hr : h.Tree (.object r)) (hkind : (h.object r).kind = .ordinary) {k : Key}
    (hk : k ∈ (h.object r).ownKeys) :
    k.Named ∧ ((h.object r).properties.find? k).any (fun p => p.enumerable) = true ∧
      ∃ v, (h.object r).data? k = some v := by
  have harray : (h.object r).isArray = false := by simp [Object.isArray, hkind]
  rw [Object.mem_ownKeys, Object.ownDescriptor_eq (by simp [harray]), Option.isSome_map,
    Option.isSome_iff_exists] at hk
  obtain ⟨p, hfind⟩ := hk
  cases hr with
  | primitive hplain => exact hplain.elim
  | array hkind' =>
    rw [hkind] at hkind'
    cases hkind'
  | object _ _ hproperties _ =>
    obtain ⟨hnamed, -, henumerable, v, w, hcontent⟩ := hproperties k p hfind
    exact ⟨hnamed, by simp [hfind, henumerable], v, Object.data?_of_content hfind hcontent⟩

theorem mem_ownKeys_of_data? (hkind : (h.object r).kind = .ordinary) {k : Key}
    (hv : (h.object r).data? k = some v) : k ∈ (h.object r).ownKeys := by
  have harray : (h.object r).isArray = false := by simp [Object.isArray, hkind]
  obtain ⟨w, e, c, hfind⟩ := Object.data?_eq_some hv
  rw [Object.mem_ownKeys, Object.ownDescriptor_eq (by simp [harray]), hfind]
  rfl

/-- The elements of an array of a tree are below its length. -/
theorem Tree.lt_length (hr : h.Tree (.object r)) {length : Nat} {writable : Bool}
    (hkind : (h.object r).kind = .array length writable) {i : Nat}
    (hv : (h.object r).data? (.index i) = some v) : i < length := by
  obtain ⟨w, e, c, hfind⟩ := Object.data?_eq_some hv
  cases hr with
  | primitive hplain => exact hplain.elim
  | array hkind' _ _ hproperties _ =>
    obtain ⟨⟨j, hj, hindex⟩, -⟩ := hproperties _ _ hfind
    rw [hkind] at hkind'
    cases hkind'
    cases hindex
    exact hj
  | object hkind' =>
    rw [hkind] at hkind'
    cases hkind'

/-- The value under a key. -/
def partAt (h : Heap) (r : Ref) (k : Key) : Value := ((h.object r).data? k).getD .undefined

/-- A plain object is written as its own keys and the values under them. -/
theorem Tree.render_object (hr : h.Tree (.object r)) (hpath : h.Encloses path (.object r))
    (hkind : (h.object r).kind = .ordinary) :
    h.render path (.object r) = objectLiteral path.isEmpty ((h.object r).ownKeys.map fun k =>
      (k, h.render (r :: path) (h.partAt r k))) := by
  have hnamed : (h.object r).namedValues =
      (h.object r).ownKeys.map fun k => (k, h.partAt r k) := by
    have hall : ∀ k ∈ (h.object r).ownKeys, (!k.isSymbol &&
        ((h.object r).properties.find? k).any fun p => p.enumerable) = true := by
      intro k hk
      obtain ⟨hnamed, henumerable, -⟩ := hr.own hkind hk
      simp [hnamed.symbol, henumerable]
    rw [Object.namedValues, List.filter_eq_self.2 hall, ← List.filterMap_eq_map]
    refine List.filterMap_congr fun k hk => ?_
    obtain ⟨-, -, v, hv⟩ := hr.own hkind hk
    simp [partAt, hv]
  rw [hr.render_eq hpath, Object.literal, hkind]
  dsimp only
  rw [hnamed, List.map_map]
  rfl

theorem Tree.hasForm (hv : h.Tree v) (hpath : h.Encloses path v) :
    (h.render path v).HasForm (h.form v) := by
  cases hv with
  | primitive hplain => exact hasForm_render_plain hplain
  | array hkind hlength hproto hproperties hparts =>
    rw [form_array hkind,
      (Tree.array hkind hlength hproto hproperties hparts).render_array hpath hkind]
    exact hasForm_arrayLiteral _
  | object hkind hproto hproperties hparts =>
    rw [form_ordinary hkind,
      (Tree.object hkind hproto hproperties hparts).render_object hpath hkind]
    exact hasForm_objectLiteral _ _

/-! ## Equal texts -/

theorem Tree.agreeOnlyIf_of_form_ne (hv : h.Tree v) (hv' : h'.Tree v')
    (hpath : h.Encloses path v) (hpath' : h'.Encloses path' v') {R : Prop}
    (hne : h.form v ≠ h'.form v') : AgreeOnlyIf R (h.render path v) (h'.render path' v') :=
  Text.agreeOnlyIf_of_form_ne (hv.hasForm hpath) (hv'.hasForm hpath') hne

/-- The texts of the parts of two composites, one path further, agree only for parts alike. -/
def PartsAgree (h h' : Heap) (path path' : List Ref) (r r' : Ref) : Prop :=
  ∀ k k' v v', (h.object r).data? k = some v → (h'.object r').data? k' = some v' →
    AgreeOnlyIf (Alike h h' v v') (h.render (r :: path) v) (h'.render (r' :: path') v')

theorem Tree.agreeOnlyIf_array (hr : h.Tree (.object r)) (hr' : h'.Tree (.object r'))
    (hpath : h.Encloses path (.object r)) (hpath' : h'.Encloses path' (.object r'))
    {length length' : Nat} {writable writable' : Bool}
    (hkind : (h.object r).kind = .array length writable)
    (hkind' : (h'.object r').kind = .array length' writable')
    (hparts : PartsAgree h h' path path' r r') :
    AgreeOnlyIf (Alike h h' (.object r) (.object r')) (h.render path (.object r))
      (h'.render path' (.object r')) := by
  rw [hr.render_array hpath hkind, hr'.render_array hpath' hkind']
  have hopening {k : Key} {v : Value} (hv : (h.object r).data? k = some v) :
      (h.render (r :: path) v).Opening := ((hr.part hv).hasForm (hpath.part hv)).opening
  have hopening' {k : Key} {v : Value} (hv : (h'.object r').data? k = some v) :
      (h'.render (r' :: path') v).Opening := ((hr'.part hv).hasForm (hpath'.part hv)).opening
  refine (agreeOnlyIf_arrayLiteral (R := fun i j => Option.Rel (Alike h h')
    ((h.object r).data? (.index i)) ((h'.object r').data? (.index j))) ?_ ?_ ?_).mono ?_
  · intro i _ t ht
    obtain ⟨v, hv, rfl⟩ := Option.map_eq_some_iff.1 ht
    exact hopening hv
  · intro i _ t ht
    obtain ⟨v, hv, rfl⟩ := Option.map_eq_some_iff.1 ht
    exact hopening' hv
  · intro i _ j _
    exact agreeOnlyIf_item (fun _ => hopening) (fun _ => hopening') fun v v' => hparts _ _ v v'
  · intro hall
    obtain rfl : length = length' := by simpa using hall.length_eq
    have hall := List.forall₂_same.1 hall
    refine .array hkind hkind' (fun i hi => ?_) fun i v v' hv hv' => ?_
    · exact rel_none_iff (hall i (List.mem_range.2 hi))
    · have hitem := hall i (List.mem_range.2 (hr.lt_length hkind hv))
      rw [hv, hv'] at hitem
      cases hitem with
      | some hpart => exact hpart

theorem Tree.agreeOnlyIf_object (hr : h.Tree (.object r)) (hr' : h'.Tree (.object r'))
    (hpath : h.Encloses path (.object r)) (hpath' : h'.Encloses path' (.object r'))
    (hroot : path.isEmpty = path'.isEmpty) (hkind : (h.object r).kind = .ordinary)
    (hkind' : (h'.object r').kind = .ordinary) (hparts : PartsAgree h h' path path' r r') :
    AgreeOnlyIf (Alike h h' (.object r) (.object r')) (h.render path (.object r))
      (h'.render path' (.object r')) := by
  rw [hr.render_object hpath hkind, hr'.render_object hpath' hkind', hroot]
  refine (agreeOnlyIf_objectLiteral (R := fun k k' => Alike h h' (h.partAt r k)
    (h'.partAt r' k')) (fun k hk => (hr.own hkind hk).1) (fun k hk => (hr'.own hkind' hk).1)
    fun k hk k' hk' => ?_).mono fun hall => ?_
  · obtain ⟨-, -, v, hv⟩ := hr.own hkind hk
    obtain ⟨-, -, v', hv'⟩ := hr'.own hkind' hk'
    have hagree := hparts k k' v v' hv hv'
    simpa [partAt, hv, hv'] using hagree
  · have hkeys : (h.object r).ownKeys = (h'.object r').ownKeys := by
      rw [← List.forall₂_eq_eq_eq]
      exact hall.imp fun _ _ hkey => hkey.1
    rw [← hkeys, List.forall₂_same] at hall
    refine .object hkind hkind' hkeys fun k v v' hv hv' => ?_
    have hpart := (hall k (mem_ownKeys_of_data? hkind hv)).2
    simpa [partAt, hv, hv'] using hpart

/-- **Trees are told apart by their texts.**  The induction is on the first tree; the second one
has the same form where the texts agree. -/
theorem Tree.agreeOnlyIf_render (hv : h.Tree v) (hv' : h'.Tree v') (hpath : h.Encloses path v)
    (hpath' : h'.Encloses path' v') (hroot : path.isEmpty = path'.isEmpty) :
    AgreeOnlyIf (Alike h h' v v') (h.render path v) (h'.render path' v') := by
  induction hv generalizing v' path path' with
  | @primitive v hplain =>
    have hother := (Tree.primitive hplain).agreeOnlyIf_of_form_ne hv' hpath hpath'
      (R := Alike h h' v v')
    cases hv' with
    | primitive hplain' => exact (agreeOnlyIf_render_plain hplain hplain').mono (.primitive hplain)
    | array hkind' =>
      rw [form_array hkind'] at hother
      exact hother (form_plain hplain).1
    | object hkind' =>
      rw [form_ordinary hkind'] at hother
      exact hother (form_plain hplain).2
  | @array r length writable hkind hlength hproto hproperties hparts ih =>
    have hr := Tree.array hkind hlength hproto hproperties hparts
    have hother := hr.agreeOnlyIf_of_form_ne hv' hpath hpath' (R := Alike h h' (.object r) v')
    rw [form_array hkind] at hother
    cases hv' with
    | primitive hplain' => exact hother (form_plain hplain').1.symm
    | array hkind' hlength' hproto' hproperties' hparts' =>
      have hr' := Tree.array hkind' hlength' hproto' hproperties' hparts'
      refine hr.agreeOnlyIf_array hr' hpath hpath' hkind hkind' fun k k' v v' hv hv' => ?_
      exact ih k v hv (hr'.part hv') (hpath.part hv) (hpath'.part hv') rfl
    | object hkind' =>
      rw [form_ordinary hkind'] at hother
      exact hother nofun
  | @object r hkind hproto hproperties hparts ih =>
    have hr := Tree.object hkind hproto hproperties hparts
    have hother := hr.agreeOnlyIf_of_form_ne hv' hpath hpath' (R := Alike h h' (.object r) v')
    rw [form_ordinary hkind] at hother
    cases hv' with
    | primitive hplain' => exact hother (form_plain hplain').2.symm
    | array hkind' =>
      rw [form_array hkind'] at hother
      exact hother nofun
    | object hkind' hproto' hproperties' hparts' =>
      have hr' := Tree.object hkind' hproto' hproperties' hparts'
      refine hr.agreeOnlyIf_object hr' hpath hpath' hroot hkind hkind' fun k k' v v' hv hv' => ?_
      exact ih k v hv (hr'.part hv') (hpath.part hv) (hpath'.part hv') rfl

/-! ## Trees alike -/

theorem Alike.render_eq (halike : Alike h h' v v') (hv : h.Tree v) (hv' : h'.Tree v')
    (hpath : h.Encloses path v) (hpath' : h'.Encloses path' v')
    (hroot : path.isEmpty = path'.isEmpty) : h.render path v = h'.render path' v' := by
  induction halike generalizing path path' with
  | primitive hplain hsame => exact render_eq_of_sameValueZero hplain hsame
  | @array r r' length _ _ hkind hkind' hholes _ ih =>
    rw [hv.render_array hpath hkind, hv'.render_array hpath' hkind']
    refine congrArg arrayLiteral (List.map_congr_left fun i hi => ?_)
    cases hdata : (h.object r).data? (.index i) with
    | none =>
      rw [(hholes i (List.mem_range.1 hi)).1 hdata]
      rfl
    | some v =>
      cases hdata' : (h'.object r').data? (.index i) with
      | none =>
        rw [(hholes i (List.mem_range.1 hi)).2 hdata'] at hdata
        cases hdata
      | some v' =>
        exact congrArg some (ih i v v' hdata hdata' (hv.part hdata) (hv'.part hdata')
          (hpath.part hdata) (hpath'.part hdata') rfl)
  | @object r r' hkind hkind' hkeys _ ih =>
    rw [hv.render_object hpath hkind, hv'.render_object hpath' hkind', hroot, ← hkeys]
    refine congrArg (objectLiteral _) (List.map_congr_left fun k hk => ?_)
    obtain ⟨-, -, w, hw⟩ := hv.own hkind hk
    obtain ⟨-, -, w', hw'⟩ := hv'.own hkind' (hkeys ▸ hk)
    have htext : h.render (r :: path) w = h'.render (r' :: path') w' :=
      ih k w w' hw hw' (hv.part hw) (hv'.part hw') (hpath.part hw) (hpath'.part hw') rfl
    simp [partAt, hw, hw', htext]

/-- **Two trees have one rendering exactly when they are alike.** -/
theorem Tree.render_eq_iff (hv : h.Tree v) (hv' : h'.Tree v') :
    h.render [] v = h'.render [] v' ↔ Alike h h' v v' := by
  constructor
  · intro heq
    have hagree := hv.agreeOnlyIf_render hv' encloses_nil encloses_nil rfl
    exact (hagree [] [] nofun nofun (by rw [heq])).1
  · exact fun halike => halike.render_eq hv hv' encloses_nil encloses_nil rfl

end Heap

/-! ## Serialization -/

/-- Serializing a tree from the outermost level gives its rendering. -/
theorem Heap.Tree.uneval {m : Machine} {v : Value} (hv : m.heap.Tree v)
    (hsources : m.heap.SourcesIntact) (hidle : m.source = .idle) {n : Nat} (hn : m.size + 3 ≤ n) :
    ∃ m', (engine n).uneval v m = .ok (m.heap.render [] v) m' := by
  have hfuel : m.heap.unvisited [] + 3 ≤ n := by
    have := m.heap.unvisited_le []
    unfold Machine.size at hn
    omega
  obtain ⟨m', hrun, -⟩ := yields_uneval (fun _ hr => Heap.Tree.composite hr) hsources hfuel
    hv.isLiteral m rfl hidle
  exact ⟨m', hrun⟩

/-- The machine with a tree in two more places: an array of a plain object and a hole, where the
object holds a number. -/
def Machine.withTree (m : Machine) (x : Number) : Machine :=
  let object : Object :=
    { Object.new (some Intrinsic.objectPrototype.ref) .ordinary with
      properties := Engine.plainTable [("a b", .number x)] }
  let array : Object :=
    { Object.new (some Intrinsic.arrayPrototype.ref) (.array 2 true) with
      properties := Engine.plainTable [(.index 0, .object ⟨m.size⟩)] }
  m.withHeap ((m.heap.allocate object).2.allocate array).2

theorem Machine.source_withTree (m : Machine) (x : Number) : (m.withTree x).source = m.source := rfl

theorem Machine.tree_withTree (m : Machine) (x : Number) :
    (m.withTree x).heap.Tree (.object ⟨m.size + 1⟩) := by
  have hobject : (m.withTree x).heap.object ⟨m.size⟩ =
      { Object.new (some Intrinsic.objectPrototype.ref) .ordinary with
        properties := Engine.plainTable [("a b", .number x)] } := by
    simp [withTree, Heap.object_allocate, size]
  have harray : (m.withTree x).heap.object ⟨m.size + 1⟩ =
      { Object.new (some Intrinsic.arrayPrototype.ref) (.array 2 true) with
        properties := Engine.plainTable [(.index 0, .object ⟨m.size⟩)] } := by
    simp [withTree, Heap.object_allocate, size]
  have hinner : (m.withTree x).heap.Tree (.object ⟨m.size⟩) := by
    refine .object (by simp [hobject, Object.new]) (by simp [hobject, Object.new])
      (fun k p hp => ?_) fun k v hv => ?_
    · rw [hobject] at hp
      obtain ⟨v, hmem, rfl⟩ := find?_plainTable hp
      obtain ⟨rfl, rfl⟩ := Prod.mk.inj (List.mem_singleton.1 hmem)
      exact ⟨⟨show Text.arrayIndex? "a b" = none by decide, rfl⟩, by decide, rfl, _, _, rfl⟩
    · obtain ⟨w, e, c, hp⟩ := Object.data?_eq_some hv
      rw [hobject] at hp
      obtain ⟨v, hmem, hproperty⟩ := find?_plainTable hp
      obtain ⟨rfl, rfl⟩ := Prod.mk.inj (List.mem_singleton.1 hmem)
      cases hproperty
      exact .primitive trivial
  have hkind : ((m.withTree x).heap.object ⟨m.size + 1⟩).kind = .array 2 true := by
    simp [harray, Object.new]
  refine .array hkind (by decide) (by simp [harray, Object.new]) (fun k p hp => ?_)
    fun k v hv => ?_
  · rw [harray] at hp
    obtain ⟨v, hmem, rfl⟩ := find?_plainTable hp
    obtain ⟨rfl, rfl⟩ := Prod.mk.inj (List.mem_singleton.1 hmem)
    exact ⟨⟨0, by decide, rfl⟩, _, _, rfl⟩
  · obtain ⟨w, e, c, hp⟩ := Object.data?_eq_some hv
    rw [harray] at hp
    obtain ⟨v, hmem, hproperty⟩ := find?_plainTable hp
    obtain ⟨rfl, rfl⟩ := Prod.mk.inj (List.mem_singleton.1 hmem)
    cases hproperty
    exact hinner

/-- **Source text tells trees apart.**  Take two trees, of one machine or of two, where the
prototypes of objects and arrays have their builtin source methods and no serialization is under
way.  Serializing each of them gives a text, and the texts are equal exactly when the trees are
alike. -/
theorem uneval_eq_iff_alike {m m' : Machine} {v v' : Value} (hsources : m.heap.SourcesIntact)
    (hsources' : m'.heap.SourcesIntact) (hidle : m.source = .idle) (hidle' : m'.source = .idle)
    (hv : m.heap.Tree v) (hv' : m'.heap.Tree v') {n n' : Nat} (hn : m.size + 3 ≤ n)
    (hn' : m'.size + 3 ≤ n') :
    ∃ t t' m₁ m₁', (engine n).uneval v m = .ok t m₁ ∧ (engine n').uneval v' m' = .ok t' m₁' ∧
      (t = t' ↔ m.heap.Alike m'.heap v v') := by
  obtain ⟨m₁, hrun⟩ := hv.uneval hsources hidle hn
  obtain ⟨m₁', hrun'⟩ := hv'.uneval hsources' hidle' hn'
  exact ⟨_, _, m₁, m₁', hrun, hrun', hv.render_eq_iff hv'⟩

/-- The two zeros have one text, so the trees that hold them are alike. -/
theorem uneval_zeros_withTree :
    ∃ t m₁ m₁', Session.root.uneval (.object ⟨(Session.initialMachine ⟨false, false⟩).size + 1⟩)
        ((Session.initialMachine ⟨false, false⟩).withTree (.finite false 0)) = .ok t m₁ ∧
      Session.root.uneval (.object ⟨(Session.initialMachine ⟨false, false⟩).size + 1⟩)
        ((Session.initialMachine ⟨false, false⟩).withTree (.finite true 0)) = .ok t m₁' ∧
      t = Text.ofString "[\x7b'a b':0\x7d, ,]" ∧
      ((Session.initialMachine ⟨false, false⟩).withTree (.finite false 0)).heap.Alike
        ((Session.initialMachine ⟨false, false⟩).withTree (.finite true 0)).heap
        (.object ⟨(Session.initialMachine ⟨false, false⟩).size + 1⟩)
        (.object ⟨(Session.initialMachine ⟨false, false⟩).size + 1⟩) := by
  have hsources (negative : Bool) :
      ((Session.initialMachine ⟨false, false⟩).withTree
        (.finite negative 0)).heap.SourcesIntact := by
    cases negative <;> exact ⟨by decide +kernel, by decide +kernel⟩
  have hidle (negative : Bool) :
      ((Session.initialMachine ⟨false, false⟩).withTree (.finite negative 0)).source = .idle :=
    (Machine.source_withTree _ _).trans (source_initialMachine _)
  have hfuel (negative : Bool) :
      ((Session.initialMachine ⟨false, false⟩).withTree (.finite negative 0)).size + 3 ≤
        Session.fuel := by
    cases negative <;> decide +kernel
  have htext (negative : Bool) : Run.text? (Session.root.uneval
      (.object ⟨(Session.initialMachine ⟨false, false⟩).size + 1⟩)
        ((Session.initialMachine ⟨false, false⟩).withTree (.finite negative 0))) =
      some (Text.ofString "[\x7b'a b':0\x7d, ,]") := by
    cases negative <;> decide +kernel
  -- from here on the machine is not evaluated any more
  generalize Session.initialMachine ⟨false, false⟩ = m at hsources hidle hfuel htext ⊢
  obtain ⟨t, t', m₁, m₁', hrun, hrun', hiff⟩ := uneval_eq_iff_alike (hsources false)
    (hsources true) (hidle false) (hidle true) (m.tree_withTree (.finite false 0))
    (m.tree_withTree (.finite true 0)) (hfuel false) (hfuel true)
  have hrun : Session.root.uneval (.object ⟨m.size + 1⟩) (m.withTree (.finite false 0)) = _ := hrun
  have hrun' : Session.root.uneval (.object ⟨m.size + 1⟩) (m.withTree (.finite true 0)) = _ := hrun'
  have ht := htext false
  have ht' := htext true
  rw [hrun] at ht
  rw [hrun'] at ht'
  have heq : t = t' := (Option.some.inj ht).trans (Option.some.inj ht').symm
  exact ⟨t, m₁, m₁', hrun, heq ▸ hrun', Option.some.inj ht, hiff.1 heq⟩

end ObjectModel
