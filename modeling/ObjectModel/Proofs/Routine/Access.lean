import ObjectModel.Proofs.Construction

/-!
# Routines of reading and writing

The operations of `ObjectModel.Engine.Access` as routines of every discipline.
-/

namespace ObjectModel

namespace Discipline

variable {D : Discipline} {b : Nat}

theorem Seen.plainTable {ps : List (Key × Value)} (h : D.Seen b ps) :
    D.Seen b (Engine.plainTable ps) := by
  refine Seen.insertAll seen_empty (seen_list.2 fun e he => ?_)
  obtain ⟨⟨k, v⟩, hkv, rfl⟩ := List.mem_map.1 he
  exact seen_pair.2 ⟨seen_key, (seen_pair.1 (seen_list.1 h _ hkv)).2⟩

theorem Seen.map {α β : Type} [HasRefs α] [HasRefs β] {o : Option α} {f : α → β}
    (ho : D.Seen b o) (hf : ∀ a, D.Seen b a → D.Seen b (f a)) : D.Seen b (o.map f) := by
  cases o with
  | none => exact seen_none
  | some a => exact seen_some.2 (hf a (seen_some.1 ho))

end Discipline

namespace Routine

open Discipline

variable {D : Discipline} {b : Nat} {o : Ref} {k : Key} {v : Value}

theorem getV (hv : D.Seen b v) : Routine D b D.Seen fun eng => eng.getV v k :=
  .bind (.toObject hv) fun _ _ h₁ ho => .getFor ho (hv.mono h₁)

theorem set (ho : D.Seen b o) (hv : D.Seen b v) (throws : Bool) :
    Routine D b Any fun eng => eng.set o k v throws := by
  refine .bind (.setFor ho hv (seen_object.2 (seen_ref.1 ho))) fun b₁ done h₁ _ => ?_
  exact .ite (fun _ => .bind .heap fun _ _ _ _ => .fail _) fun _ => .done _

theorem createDataProperty (ho : D.Seen b o) (hv : D.Seen b v) :
    Routine D b Any fun eng => eng.createDataProperty o k v :=
  .defineOwnProperty ho hv.plain

/-- A refused action throws. -/
theorem unlessDone {x : Engine → Run Bool} {y : Engine → Run Unit} (hx : Routine D b Any x)
    (hy : ∀ b', Routine D b' Any y) :
    Routine D b Any fun eng => (do unless ← x eng do y eng) := by
  refine .bind hx fun b₁ done _ _ => ?_
  cases done with
  | true => exact .done _
  | false => exact hy b₁

theorem createDataPropertyOrThrow (ho : D.Seen b o) (hv : D.Seen b v) :
    Routine D b Any fun eng => eng.createDataPropertyOrThrow o k v :=
  .unlessDone (.createDataProperty ho hv) fun _ => .fail _

theorem definePropertyOrThrow {d : Descriptor} (ho : D.Seen b o) (hd : D.Seen b d) :
    Routine D b Any fun eng => eng.definePropertyOrThrow o k d :=
  .unlessDone (.defineOwnProperty ho hd) fun _ => .bind .heap fun _ _ _ _ => .fail _

theorem deletePropertyOrThrow (ho : D.Seen b o) :
    Routine D b Any fun eng => eng.deletePropertyOrThrow o k :=
  .unlessDone (.deleteProperty ho) fun _ => .fail _

theorem getMethod (hv : D.Seen b v) : Routine D b D.Seen fun eng => eng.getMethod v k := by
  refine .bind (.getV hv) fun b₁ f h₁ hf => .ite (fun _ => .give seen_none) fun _ => ?_
  refine .bind (.callable? hf) fun b₂ g h₂ hg => ?_
  cases g with
  | none => exact .fail _
  | some g => exact .give hg

theorem invoke {arguments : List Value} (hv : D.Seen b v) (ha : D.Seen b arguments) :
    Routine D b D.Seen fun eng => eng.invoke v k arguments :=
  .bind (.getV hv) fun _ _ h₁ hf => .call hf (hv.mono h₁) (ha.mono h₁)

/-! ## New objects with plain properties -/

theorem newPlainObject {ps : List (Key × Value)} (h : D.Seen b ps) :
    Routine D b D.Seen fun _ => Engine.newPlainObject ps := by
  have hnew : D.Seen b (Object.new (some Intrinsic.objectPrototype.ref) .ordinary) :=
    seen_new.2 ⟨seen_some.2 seen_intrinsic, nofun⟩
  rw [newPlainObject_eq]
  exact .allocate (hnew.withProperties h.plainTable) (Object.regular_of_not_isArray rfl) nofun

theorem listing {vs : List Value} (h : D.Seen b vs) (hlimit : vs.length ≤ indexLimit) :
    Routine D b D.Seen fun _ => Run.allocate (.listing vs) := by
  have hnew : D.Seen b
      (Object.new (some Intrinsic.arrayPrototype.ref) (.array vs.length true)) :=
    seen_new.2 ⟨seen_some.2 seen_intrinsic, nofun⟩
  have hitems : D.Seen b (listed vs) := by
    refine seen_list.2 fun e he => ?_
    obtain ⟨⟨v, i⟩, hvi, rfl⟩ := List.mem_map.1 he
    exact seen_pair.2 ⟨seen_key, seen_list.1 h v (List.fst_mem_of_mem_zipIdx hvi)⟩
  exact .allocate (hnew.withProperties hitems.plainTable) (Object.regular_listing hlimit) nofun

theorem newArray {vs : List Value} (h : D.Seen b vs) :
    Routine D b D.Seen fun _ => Engine.newArray vs := by
  have htaken : D.Seen b (vs.take indexLimit) :=
    seen_list.2 fun v hv => seen_list.1 h v (List.mem_of_mem_take hv)
  rw [newArray_eq]
  exact .bind (.listing htaken (List.length_take_le _ _)) fun _ _ _ ho =>
    .ite (fun _ => .give ho) fun _ => .fail _

/-! ## Lists -/

theorem lengthOfArrayLike (ho : D.Seen b o) :
    Routine D b Any fun eng => eng.lengthOfArrayLike o :=
  .bind (.get ho) fun _ _ _ hv => .toLength hv

/-- An element before the routine for the rest of a list. -/
theorem consSeen {α : Type} [HasRefs α] {x : Engine → Run (List α)} {a : α} (ha : D.Seen b a)
    (hx : Routine D b D.Seen x) :
    Routine D b D.Seen fun eng => x eng >>= fun rest => pure (a :: rest) :=
  .map hx fun _ _ h₁ hrest _ h₂ => seen_cons.2 ⟨(ha.mono h₁).mono h₂, hrest.mono h₂⟩

theorem elements (ho : D.Seen b o) (count start : Nat) :
    Routine D b D.Seen fun eng => eng.elements o count start := by
  induction count generalizing b start with
  | zero => exact .give seen_nil
  | succ count ih =>
    simp only [Engine.elements]
    exact .bind (.get ho) fun b₁ v h₁ hv => .consSeen hv (ih (ho.mono h₁) _)

theorem listFromArrayLike (hv : D.Seen b v) :
    Routine D b D.Seen fun eng => eng.listFromArrayLike v := by
  cases v with
  | object o =>
    have ho : D.Seen b o := seen_ref.2 (seen_object.1 hv)
    exact .bind (.lengthOfArrayLike ho) fun _ _ h₁ _ =>
      .ite (fun _ => .fail _) fun _ => .elements (ho.mono h₁) _ _
  | _ => exact .fail _

theorem toPropertyKeys {vs : List Value} (h : D.Seen b vs) :
    Routine D b Any fun eng => eng.toPropertyKeys vs := by
  induction vs generalizing b with
  | nil => exact .done _
  | cons v rest ih =>
    obtain ⟨hv, hrest⟩ := seen_cons.1 h
    exact .bind (.toPropertyKey hv) fun _ _ h₁ _ => .mapAny (ih (hrest.mono h₁)) _

/-! ## Descriptors as objects -/

theorem fromDescriptor {d : Descriptor} (hd : D.Seen b d) :
    Routine D b D.Seen fun _ => Engine.fromDescriptor d := by
  obtain ⟨hv, hg, hs⟩ := seen_descriptor.1 hd
  -- an attribute that is present becomes a property whose value has been seen
  have hfield {α : Type} (name : Key) (a : Option α) (f : α → Value)
      (hf : ∀ x, a = some x → D.Seen b (f x)) :
      D.Seen b (a.map fun x => (name, f x)).toList := by
    cases a with
    | none => exact seen_nil
    | some x => exact seen_cons.2 ⟨seen_pair.2 ⟨seen_key, hf x rfl⟩, seen_nil⟩
  have haccessor (a : Option (Option Ref)) (ha : D.Seen b a) (f : Option Ref) (h : a = some f) :
      D.Seen b (f.elim Value.undefined Value.object) := by
    subst h
    exact (seen_some.1 ha).elim
  refine .newPlainObject ?_
  simp only [seen_append]
  exact ⟨⟨⟨⟨⟨hfield _ _ _ fun x h => seen_some.1 (h ▸ hv),
    hfield _ _ _ fun _ _ => seen_bool⟩, hfield _ _ _ (haccessor _ hg)⟩,
    hfield _ _ _ (haccessor _ hs)⟩, hfield _ _ _ fun _ _ => seen_bool⟩,
    hfield _ _ _ fun _ _ => seen_bool⟩

theorem field? (ho : D.Seen b o) : Routine D b D.Seen fun eng => eng.field? o k := by
  refine .bind (.hasProperty ho) fun b₁ found h₁ _ => .ite (fun _ => ?_) fun _ => .give seen_none
  exact .map (.get (ho.mono h₁)) fun _ _ _ hv _ h₂ => seen_some.2 (hv.mono h₂)

theorem toAccessor (half : AccessorHalf) (hv : D.Seen b v) :
    Routine D b D.Seen fun _ => Engine.toAccessor half v := by
  refine .ite (fun _ => .give seen_none) fun _ => .bind (.callable? hv) fun b₁ f _ hf => ?_
  cases f with
  | none => exact .fail _
  | some f => exact .give hf

theorem accessorField? (ho : D.Seen b o) (half : AccessorHalf) :
    Routine D b D.Seen fun eng => eng.accessorField? o k half := by
  refine .bind (.field? ho) fun b₁ v h₁ hv => ?_
  cases v with
  | none => exact .give seen_none
  | some v =>
    exact .map (.toAccessor half (seen_some.1 hv)) fun _ _ _ hf _ h₂ => seen_some.2 (hf.mono h₂)

theorem toDescriptor (hv : D.Seen b v) : Routine D b D.Seen fun eng => eng.toDescriptor v := by
  cases v with
  | object o =>
    have ho : D.Seen b o := seen_ref.2 (seen_object.1 hv)
    refine .bind (.field? ho) fun b₁ enumerable h₁ _ => ?_
    refine .bind (.field? (ho.mono h₁)) fun b₂ configurable h₂ _ => ?_
    have ho₂ := (ho.mono h₁).mono h₂
    refine .bind (.field? ho₂) fun b₃ value h₃ hvalue => ?_
    refine .bind (.field? (ho₂.mono h₃)) fun b₄ writable h₄ _ => ?_
    have ho₄ := (ho₂.mono h₃).mono h₄
    refine .bind (.accessorField? ho₄ _) fun b₅ getter h₅ hgetter => ?_
    refine .bind (.accessorField? (ho₄.mono h₅) _) fun b₆ setter h₆ hsetter => ?_
    refine .ite (fun _ => .fail _) fun _ => .give (seen_descriptor.2 ⟨?_, hgetter.mono h₆, hsetter⟩)
    exact ((hvalue.mono h₄).mono h₅).mono h₆
  | _ => exact .fail _

end Routine

end ObjectModel
