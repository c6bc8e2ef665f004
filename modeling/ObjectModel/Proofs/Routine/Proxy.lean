import ObjectModel.Engine.Accessor
import ObjectModel.Engine.Adapter
import ObjectModel.Engine.Enumeration
import ObjectModel.Proofs.Routine.Access

/-!
# Routines of proxies

The traps of a proxy, derived or from a table, the making of proxies, and the questions about keys
and accessors that a proxy may answer, as routines of every discipline.
-/

namespace ObjectModel

namespace Discipline

variable {D : Discipline} {b : Nat}

theorem seen_handler {h : Handler} :
    D.Seen b h ↔ D.Seen b h.object ∧ D.Seen b h.operations :=
  ⟨fun hh => ⟨fun r hr => hh r (Or.inl hr), fun r hr => hh r (Or.inr hr)⟩,
    fun hh r hr => hr.elim (hh.1 r) (hh.2 r)⟩

theorem seen_callTraps {c : CallTraps} :
    D.Seen b c ↔ D.Seen b c.call ∧ D.Seen b c.construct :=
  ⟨fun hc => ⟨fun r hr => hc r (Or.inl hr), fun r hr => hc r (Or.inr hr)⟩,
    fun hc r hr => hr.elim (hc.1 r) (hc.2 r)⟩

theorem seen_adapted {h : Handler} {c : Option CallTraps} :
    D.Seen b (TrapTable.adapted h c) ↔ D.Seen b h ∧ D.Seen b c :=
  ⟨fun hh => ⟨fun r hr => hh r (Or.inl hr), fun r hr => hh r (Or.inr hr)⟩,
    fun hh r hr => hr.elim (hh.1 r) (hh.2 r)⟩

theorem seen_proxy {target : Ref} {traps : TrapTable} :
    D.Seen b (Kind.proxy target traps) ↔
      (traps.exposes = true → D.Seen b target) ∧ D.Seen b traps :=
  ⟨fun h => ⟨fun ht r hr => h r (Or.inl ⟨ht, hr⟩), fun r hr => h r (Or.inr hr)⟩,
    fun h r hr => hr.elim (fun hr => h.1 hr.1 r hr.2) (h.2 r)⟩

theorem Seen.lookup {α β : Type} [BEq α] [HasRefs α] [HasRefs β] {l : List (α × β)}
    (h : D.Seen b l) (a : α) : D.Seen b (l.lookup a) := by
  induction l with
  | nil => exact seen_none
  | cons e rest ih =>
    obtain ⟨he, hrest⟩ := seen_cons.1 h
    rw [List.lookup_cons]
    cases a == e.1 with
    | true => exact seen_some.2 (seen_pair.1 he).2
    | false => exact ih hrest

theorem Seen.ancestorsWithin {h : Heap} (hh : D.Seen b h) (fuel : Nat) (seen : List Ref)
    {r : Option Ref} (hr : D.Seen b r) : D.Seen b (h.ancestorsWithin fuel seen r) := by
  induction fuel generalizing seen r with
  | zero => exact seen_nil
  | succ fuel ih =>
    cases r with
    | none => exact seen_nil
    | some r =>
      unfold Heap.ancestorsWithin
      split
      · exact seen_nil
      · exact seen_cons.2 ⟨seen_some.1 hr, ih _ (hh.prototypeOf r)⟩

theorem Seen.descriptor {half : AccessorHalf} {f : Option Ref} (h : D.Seen b f) :
    D.Seen b (half.descriptor f) := by
  cases half with
  | getter => exact seen_descriptor.2 ⟨seen_none, seen_some.2 h, seen_none⟩
  | setter => exact seen_descriptor.2 ⟨seen_none, seen_none, seen_some.2 h⟩

theorem Seen.pick {d : Descriptor} (h : D.Seen b d) (half : AccessorHalf) :
    D.Seen b (half.pick d) := by
  obtain ⟨-, hg, hs⟩ := seen_descriptor.1 h
  cases half with
  | getter => exact hg.join
  | setter => exact hs.join

end Discipline

namespace Routine

open Discipline

variable {D : Discipline} {b : Nat} {k : Key} {v receiver : Value} {arguments : List Value}

/-- The value of an object that a routine gives. -/
theorem objectValue {x : Engine → Run Ref} (hx : Routine D b D.Seen x) :
    Routine D b D.Seen fun eng => x eng >>= fun r => pure (Value.object r) :=
  .map hx fun _ _ _ hr _ h₂ => seen_object.2 (seen_ref.1 (hr.mono h₂))

/-- What a routine gives, if anything. -/
theorem mapSome {α : Type} [HasRefs α] {x : Engine → Run α} (hx : Routine D b D.Seen x) :
    Routine D b D.Seen fun eng => x eng >>= fun a => pure (some a) :=
  .map hx fun _ _ _ ha _ h₂ => seen_some.2 (ha.mono h₂)

/-! ## Operations of a handler -/

section Handlers

variable {h : Handler} {op : HandlerOperation}

theorem callOperation (hh : D.Seen b h) (ha : D.Seen b arguments) :
    Routine D b D.Seen fun eng => eng.callOperation h op arguments := by
  obtain ⟨hobject, hoperations⟩ := seen_handler.1 hh
  have hfound : D.Seen b (h.operation? op) := hoperations.lookup op
  unfold Engine.callOperation
  cases hop : h.operation? op with
  | none => exact .fail _
  | some f => exact .call (seen_some.1 (hop ▸ hfound)) (seen_object.2 (seen_ref.1 hobject)) ha

theorem operationDescriptor (hh : D.Seen b h) (hv : D.Seen b v) :
    Routine D b D.Seen fun eng => eng.operationDescriptor h op v := by
  refine .bind (.callOperation hh (seen_cons.2 ⟨hv, seen_nil⟩)) fun b₁ result h₁ hresult => ?_
  exact .ite (fun _ => .give seen_none) fun _ => .mapSome (.toDescriptor hresult)

theorem operationNames (hh : D.Seen b h) :
    Routine D b D.Seen fun eng => eng.operationNames h op :=
  .bind (.callOperation hh seen_nil) fun _ _ _ hv => .listFromArrayLike hv

theorem seen_handlerKey : D.Seen b (Engine.handlerKey k) := by
  unfold Engine.handlerKey
  split
  · exact seen_text
  · exact seen_toValue

/-! ## Derived traps -/

theorem derivedGetOwn (hh : D.Seen b h) :
    Routine D b D.Seen fun eng => eng.derivedGetOwn h k := by
  unfold Engine.derivedGetOwn
  cases h.derive? .getOwnPropertyDescriptor with
  | none => exact .fail _
  | some derivation =>
    cases derivation with
    | operation op => exact .operationDescriptor hh seen_toValue
    | _ => exact .fail _

/-- Describes a property to a handler's operation. -/
theorem defineThrough {d : Descriptor} (hh : D.Seen b h) (hv : D.Seen b v) (hd : D.Seen b d) :
    Routine D b Any fun eng => (do
      let description ← Engine.fromDescriptor d
      let _ ← eng.callOperation h op [v, .object description]
      pure true) := by
  refine .bind (.fromDescriptor hd) fun b₁ r h₁ hr => ?_
  refine .bind (.callOperation (hh.mono h₁) ?_) fun _ _ _ _ => .done _
  exact seen_cons.2 ⟨hv.mono h₁, seen_cons.2 ⟨seen_object.2 (seen_ref.1 hr), seen_nil⟩⟩

theorem derivedDefine {d : Descriptor} (hh : D.Seen b h) (hd : D.Seen b d) :
    Routine D b Any fun eng => eng.derivedDefine h k d := by
  unfold Engine.derivedDefine
  cases h.derive? .defineProperty with
  | none => exact .fail _
  | some derivation =>
    cases derivation with
    | operation op => exact .defineThrough hh seen_toValue hd
    | _ => exact .fail _

theorem derivedPredicate (hh : D.Seen b h) (trap : Trap) :
    Routine D b Any fun eng => eng.derivedPredicate h trap k := by
  unfold Engine.derivedPredicate
  cases h.derive? trap with
  | none => exact .fail _
  | some derivation =>
    cases derivation with
    | operation op =>
      refine .bind (.callOperation hh (seen_cons.2 ⟨seen_toValue, seen_nil⟩)) fun _ _ _ _ => ?_
      cases op <;> exact .done _
    | _ => exact .fail _

/-- Reading by the descriptor that the handler gives for a key. -/
theorem getByDescriptor (hh : D.Seen b h) (hr : D.Seen b receiver) :
    Routine D b D.Seen fun eng => (do
      match ← eng.operationDescriptor h op (Engine.handlerKey k) with
      | none => pure .undefined
      | some d =>
        if d.isData then pure (d.value.getD .undefined)
        else
          match d.get.join with
          | some f => eng.call (.object f) receiver []
          | none => pure .undefined) := by
  refine .bind (.operationDescriptor hh seen_handlerKey) fun b₁ found h₁ hfound => ?_
  cases found with
  | none => exact .give seen_undefined
  | some d =>
    obtain ⟨hvalue, hgetter, -⟩ := seen_descriptor.1 (seen_some.1 hfound)
    refine .ite (fun _ => .give (hvalue.getD' seen_undefined)) fun _ => ?_
    have hgetter := hgetter.join
    cases hg : d.get.join with
    | none => exact .give seen_undefined
    | some f =>
      have hf : D.Seen b₁ f := seen_some.1 (hg ▸ hgetter)
      exact .call (seen_object.2 (seen_ref.1 hf)) (hr.mono h₁) seen_nil

theorem derivedGet (hh : D.Seen b h) (hr : D.Seen b receiver) :
    Routine D b D.Seen fun eng => eng.derivedGet h k receiver := by
  unfold Engine.derivedGet
  cases h.derive? .get with
  | none => exact .fail _
  | some derivation =>
    cases derivation with
    | operation op =>
      cases op with
      | get =>
        exact .callOperation hh (seen_cons.2 ⟨hr, seen_cons.2 ⟨seen_toValue, seen_nil⟩⟩)
      | _ => exact .getByDescriptor hh hr
    | _ => exact .getByDescriptor hh hr

theorem setThrough {d : Descriptor} {key : Value} (hh : D.Seen b h) (hkey : D.Seen b key)
    (hd : D.Seen b d) (hv : D.Seen b v) (hr : D.Seen b receiver) :
    Routine D b Any fun eng => eng.setThrough h key d v receiver := by
  obtain ⟨-, hg, hs⟩ := seen_descriptor.1 hd
  unfold Engine.setThrough
  refine .ite (fun _ => .ite (fun _ => .done _) fun _ => ?_) fun _ => ?_
  · exact .defineThrough hh hkey (seen_descriptor.2 ⟨seen_some.2 hv, hg, hs⟩)
  · have hs := hs.join
    cases hsetter : d.set.join with
    | none => exact .done _
    | some f =>
      have hf : D.Seen b f := seen_some.1 (hsetter ▸ hs)
      exact .bind (.call (seen_object.2 (seen_ref.1 hf)) hr (seen_cons.2 ⟨hv, seen_nil⟩))
        fun _ _ _ _ => .done _

theorem optionalDescriptor (hh : D.Seen b h) (hv : D.Seen b v) :
    Routine D b D.Seen fun eng => eng.optionalDescriptor h op v :=
  .ite (fun _ => .operationDescriptor hh hv) fun _ => .give seen_none

/-- Assignment by the descriptor that was found, or by a new one. -/
theorem setByDescriptor {found : Option Descriptor} (hh : D.Seen b h) (hv : D.Seen b v)
    (hr : D.Seen b receiver) (hfound : D.Seen b found) :
    Routine D b Any fun eng => (do
      match found with
      | some d => eng.setThrough h k.toValue d v receiver
      | none =>
        let description ← Engine.fromDescriptor (.plain v)
        let _ ← eng.callOperation h .defineProperty [k.toValue, .object description]
        pure true) := by
  cases found with
  | some d => exact .setThrough hh seen_toValue (seen_some.1 hfound) hv hr
  | none => exact .defineThrough hh seen_toValue hv.plain

theorem derivedSet (hh : D.Seen b h) (hv : D.Seen b v) (hr : D.Seen b receiver) :
    Routine D b Any fun eng => eng.derivedSet h k v receiver := by
  have hdescriptors : Routine D b Any fun eng => (do
      let own ← eng.optionalDescriptor h .getOwnPropertyDescriptor k.toValue
      let found ←
        match own with
        | some d => pure (some d)
        | none => eng.optionalDescriptor h .getPropertyDescriptor k.toValue
      match found with
      | some d => eng.setThrough h k.toValue d v receiver
      | none =>
        let description ← Engine.fromDescriptor (.plain v)
        let _ ← eng.callOperation h .defineProperty [k.toValue, .object description]
        pure true) := by
    refine .bind (.optionalDescriptor hh seen_toValue) fun b₁ own h₁ hown => ?_
    have hh₁ := hh.mono h₁
    have hv₁ := hv.mono h₁
    have hr₁ := hr.mono h₁
    cases own with
    | some d =>
      exact .bind (.give hown) fun _ _ h₂ hfound =>
        .setByDescriptor (hh₁.mono h₂) (hv₁.mono h₂) (hr₁.mono h₂) hfound
    | none =>
      exact .bind (.optionalDescriptor hh₁ seen_toValue) fun _ _ h₂ hfound =>
        .setByDescriptor (hh₁.mono h₂) (hv₁.mono h₂) (hr₁.mono h₂) hfound
  unfold Engine.derivedSet
  cases h.derive? .set with
  | none => exact hdescriptors
  | some derivation =>
    cases derivation with
    | operation op =>
      refine .mapAny (.callOperation hh ?_) _
      exact seen_cons.2 ⟨hr, seen_cons.2 ⟨seen_toValue, seen_cons.2 ⟨hv, seen_nil⟩⟩⟩
    | _ => exact hdescriptors

theorem derivedOwnKeys (hh : D.Seen b h) : Routine D b Any fun eng => eng.derivedOwnKeys h := by
  unfold Engine.derivedOwnKeys
  cases h.derive? .ownKeys with
  | none => exact .fail _
  | some derivation =>
    cases derivation with
    | operation op => exact .bind (.operationNames hh) fun _ _ _ hns => .toPropertyKeys hns
    | _ => exact .fail _

theorem enumerableNames (hh : D.Seen b h) {names : List Value} (hn : D.Seen b names) :
    Routine D b D.Seen fun eng => eng.enumerableNames h names := by
  induction names generalizing b with
  | nil => exact .give seen_nil
  | cons name rest ih =>
    obtain ⟨hname, hrest⟩ := seen_cons.1 hn
    simp only [Engine.enumerableNames]
    refine .bind (.toPropertyKey hname) fun b₁ key h₁ _ => ?_
    refine .bind (.operationDescriptor (hh.mono h₁) seen_toValue) fun b₂ d h₂ _ => ?_
    refine .map (ih ((hh.mono h₁).mono h₂) ((hrest.mono h₁).mono h₂)) fun b₃ kept h₃ hk b₄ h₄ => ?_
    split
    · exact seen_cons.2 ⟨(((hname.mono h₁).mono h₂).mono h₃).mono h₄, hk.mono h₄⟩
    · exact hk.mono h₄

/-- An iterator over the values that a routine lists. -/
theorem iteratorOver {x : Engine → Run (List Value)} (hx : Routine D b D.Seen x) :
    Routine D b D.Seen fun eng => x eng >>= fun vs => Engine.newIterator (.list vs.toArray) :=
  .bind hx fun _ _ _ hvs => .newIterator hvs

theorem derivedEnumerate (hh : D.Seen b h) :
    Routine D b D.Seen fun eng => eng.derivedEnumerate h := by
  unfold Engine.derivedEnumerate
  cases h.derive? .enumerate with
  | none => exact .fail _
  | some derivation =>
    cases derivation with
    | operation op =>
      cases op with
      | iterate =>
        refine .bind (.callOperation hh seen_nil) fun b₁ v h₁ hv => ?_
        cases v with
        | object r => exact .give (seen_ref.2 (seen_object.1 hv))
        | _ => exact .fail _
      | _ => exact .iteratorOver (.operationNames hh)
    | enumerableNames =>
      exact .bind (.operationNames hh) fun _ _ h₁ hns =>
        .iteratorOver (.enumerableNames (hh.mono h₁) hns)
    | descriptors => exact .fail _

end Handlers

/-! ## The answers of a proxy -/

section Traps

variable {target : Ref} {traps : TrapTable}

theorem trapObject (hv : D.Seen b v) : Routine D b D.Seen fun _ => Engine.trapObject v := by
  cases v with
  | object r => exact .give (seen_ref.2 (seen_object.1 hv))
  | _ => exact .fail _

theorem callTrap (hv : D.Seen b v) (ht : D.Seen b target) (ha : D.Seen b arguments) :
    Routine D b D.Seen fun eng => eng.callTrap v target arguments :=
  .call hv seen_undefined (seen_cons.2 ⟨seen_object.2 (seen_ref.1 ht), ha⟩)

theorem trapPredicate (hv : D.Seen b v) (ht : D.Seen b target) (ha : D.Seen b arguments) :
    Routine D b Any fun eng => eng.trapPredicate v target arguments :=
  .mapAny (.callTrap hv ht ha) _

/-- A trap is answered by the function of a table, by a handler, or else by the target. -/
theorem byTable {α : Type} {Q : Nat → α → Prop} {trap : Trap} {forward : Engine → Run α}
    {byFunction : Value → Engine → Run α} {table : List (Trap × Value)} (ht : D.Seen b table)
    (hf : ∀ f, D.Seen b f → Routine D b Q (byFunction f)) (hforward : Routine D b Q forward) :
    Routine D b Q fun eng =>
      match table.lookup trap with
      | some f => byFunction f eng
      | none => forward eng := by
  have hfound := ht.lookup trap
  cases h : table.lookup trap with
  | none => exact hforward
  | some f => exact hf f (seen_some.1 (h ▸ hfound))

variable (ht : traps.exposes = true → D.Seen b target) (htraps : D.Seen b traps)

include ht htraps

theorem proxyPredicate (trap : Trap) {forward : Engine → Run Bool}
    (hforward : traps.exposes = true → Routine D b Any forward) :
    Routine D b Any fun eng => eng.proxyPredicate target traps trap k (forward eng) := by
  cases traps with
  | functions table =>
    have ht := ht rfl
    exact .byTable htraps
      (fun f hf => .trapPredicate hf ht (seen_cons.2 ⟨seen_toValue, seen_nil⟩)) (hforward rfl)
  | adapted h c => exact .derivedPredicate (seen_adapted.1 htraps).1 trap
  | enumeratesTarget => exact hforward rfl

theorem proxyGetOwn :
    Routine D b D.Seen fun eng => eng.proxyGetOwn target traps k := by
  cases traps with
  | functions table =>
    have ht := ht rfl
    refine .byTable htraps (fun f hf => ?_) (.getOwnProperty ht)
    refine .bind (.callTrap hf ht (seen_cons.2 ⟨seen_toValue, seen_nil⟩)) fun b₁ v _ hv => ?_
    refine .ite (fun _ => .give seen_none) fun _ => ?_
    exact .map (.toDescriptor hv) fun _ _ _ hd _ h₂ => seen_some.2 (hd.complete.mono h₂)
  | adapted h c =>
    exact .map (.derivedGetOwn (seen_adapted.1 htraps).1) fun _ _ _ hd _ h₂ =>
      (hd.mono h₂).map fun _ hd => hd.complete
  | enumeratesTarget => exact .getOwnProperty (ht rfl)

theorem proxyDefine {d : Descriptor} (hd : D.Seen b d) :
    Routine D b Any fun eng => eng.proxyDefine target traps k d := by
  cases traps with
  | functions table =>
    have ht := ht rfl
    refine .byTable htraps (fun f hf => ?_) (.defineOwnProperty ht hd)
    refine .bind (.fromDescriptor hd) fun b₁ r h₁ hr => ?_
    refine .trapPredicate (hf.mono h₁) (ht.mono h₁) ?_
    exact seen_cons.2 ⟨seen_toValue, seen_cons.2 ⟨seen_object.2 (seen_ref.1 hr), seen_nil⟩⟩
  | adapted h c => exact .derivedDefine (seen_adapted.1 htraps).1 hd
  | enumeratesTarget => exact .defineOwnProperty (ht rfl) hd

theorem proxyHas :
    Routine D b Any fun eng => eng.proxyHas target traps k :=
  .proxyPredicate ht htraps _ fun h => .hasProperty (ht h)

theorem proxyDelete :
    Routine D b Any fun eng => eng.proxyDelete target traps k :=
  .proxyPredicate ht htraps _ fun h => .deleteProperty (ht h)

theorem proxyGet (hr : D.Seen b receiver) :
    Routine D b D.Seen fun eng => eng.proxyGet target traps k receiver := by
  cases traps with
  | functions table =>
    have ht := ht rfl
    refine .byTable htraps (fun f hf => ?_) (.getFor ht hr)
    exact .callTrap hf ht (seen_cons.2 ⟨seen_toValue, seen_cons.2 ⟨hr, seen_nil⟩⟩)
  | adapted h c => exact .derivedGet (seen_adapted.1 htraps).1 hr
  | enumeratesTarget => exact .getFor (ht rfl) hr

theorem proxySet (hv : D.Seen b v) (hr : D.Seen b receiver) :
    Routine D b Any fun eng => eng.proxySet target traps k v receiver := by
  cases traps with
  | functions table =>
    have ht := ht rfl
    refine .byTable htraps (fun f hf => .trapPredicate hf ht ?_) (.setFor ht hv hr)
    exact seen_cons.2 ⟨seen_toValue, seen_cons.2 ⟨hv, seen_cons.2 ⟨hr, seen_nil⟩⟩⟩
  | adapted h c => exact .derivedSet (seen_adapted.1 htraps).1 hv hr
  | enumeratesTarget => exact .setFor (ht rfl) hv hr

theorem proxyOwnKeys :
    Routine D b Any fun eng => eng.proxyOwnKeys target traps := by
  cases traps with
  | functions table =>
    have ht := ht rfl
    refine .byTable htraps (fun f hf => ?_) (.ownKeys ht)
    refine .bind (.callTrap hf ht seen_nil) fun _ _ _ hv => ?_
    exact .bind (.listFromArrayLike hv) fun _ _ _ hns => .toPropertyKeys hns
  | adapted h c => exact .derivedOwnKeys (seen_adapted.1 htraps).1
  | enumeratesTarget => exact .ownKeys (ht rfl)

theorem proxySetPrototypeOf {p : Option Ref} (hp : D.Seen b p) :
    Routine D b Any fun eng => eng.proxySetPrototypeOf target traps p := by
  cases traps with
  | functions table =>
    have ht := ht rfl
    exact .byTable htraps
      (fun f hf => .trapPredicate hf ht (seen_cons.2 ⟨hp.ofRef?, seen_nil⟩)) (.setPrototypeOf ht hp)
  | adapted h c => exact .fail _
  | enumeratesTarget => exact .setPrototypeOf (ht rfl) hp

theorem proxyCall (hr : D.Seen b receiver) (ha : D.Seen b arguments) :
    Routine D b D.Seen fun eng => eng.proxyCall target traps receiver arguments := by
  cases traps with
  | functions table =>
    have ht := ht rfl
    refine .byTable htraps (fun f hf => ?_) (.callRaw hr ha)
    refine .bind (.newArray ha) fun b₁ list h₁ hlist => .callTrap (hf.mono h₁) (ht.mono h₁) ?_
    exact seen_cons.2
      ⟨hr.mono h₁, seen_cons.2 ⟨seen_object.2 (seen_ref.1 hlist), seen_nil⟩⟩
  | adapted h c =>
    cases c with
    | none => exact .callRaw hr ha
    | some c =>
      have hc := (seen_callTraps.1 (seen_some.1 (seen_adapted.1 htraps).2)).1
      exact .call (seen_object.2 (seen_ref.1 hc)) hr ha
  | enumeratesTarget => exact .callRaw hr ha

theorem proxyConstruct {newTarget : Ref} (ha : D.Seen b arguments) (hn : D.Seen b newTarget) :
    Routine D b D.Seen fun eng => eng.proxyConstruct target traps arguments newTarget := by
  cases traps with
  | functions table =>
    have ht := ht rfl
    refine .byTable htraps (fun f hf => ?_) (.constructRaw ha hn)
    refine .bind (.newArray ha) fun b₁ list h₁ hlist => ?_
    refine .bind (.callTrap (hf.mono h₁) (ht.mono h₁) ?_) fun _ _ _ hv => .trapObject hv
    exact seen_cons.2 ⟨seen_object.2 (seen_ref.1 hlist),
      seen_cons.2 ⟨seen_object.2 (seen_ref.1 (hn.mono h₁)), seen_nil⟩⟩
  | adapted h c =>
    cases c with
    | none => exact .constructRaw ha hn
    | some c =>
      exact .construct (seen_callTraps.1 (seen_some.1 (seen_adapted.1 htraps).2)).2 ha seen_none
  | enumeratesTarget => exact .constructRaw ha hn

end Traps

/-! ## Questions that a proxy may answer by a trap of its own -/

variable {o : Ref}

theorem proxyHasOwn? : Routine D b Any fun eng => eng.proxyHasOwn? o k := by
  refine .bind (.kind o) fun b₁ kind _ hkind => ?_
  cases kind with
  | proxy target traps =>
    obtain ⟨ht, htraps⟩ := seen_proxy.1 hkind
    have hforward : Routine D b₁ Any fun _ => (pure false : Run Bool) := .done _
    exact .ite (fun _ => .mapAny (.proxyPredicate ht htraps _ fun _ => hforward) _)
      fun _ => .done _
  | _ => exact .done _

theorem proxyEnumerate? : Routine D b D.Seen fun eng => eng.proxyEnumerate? o := by
  refine .bind (.kind o) fun b₁ kind _ hkind => ?_
  cases kind with
  | proxy target traps =>
    obtain ⟨ht, htraps⟩ := seen_proxy.1 hkind
    cases traps with
    | functions table =>
      refine .byTable htraps (fun f hf => ?_) (.give seen_none)
      exact .bind (.callTrap hf (ht rfl) seen_nil) fun _ _ _ hv => .mapSome (.trapObject hv)
    | adapted h c => exact .mapSome (.derivedEnumerate (seen_adapted.1 htraps).1)
    | enumeratesTarget => exact .give (seen_some.2 (ht rfl))
  | _ => exact .give seen_none

theorem hasOwnProperty (ho : D.Seen b o) :
    Routine D b Any fun eng => eng.hasOwnProperty o k := by
  refine .bind .proxyHasOwn? fun b₁ answer h₁ _ => ?_
  cases answer with
  | some answer => exact .done _
  | none => exact .mapAny (.getOwnProperty (ho.mono h₁)) _

theorem isOwnEnumerable (ho : D.Seen b o) :
    Routine D b Any fun eng => eng.isOwnEnumerable o k :=
  .mapAny (.getOwnProperty ho) _

theorem keepEnumerable (ho : D.Seen b o) (ks : List Key) :
    Routine D b Any fun eng => eng.keepEnumerable o ks := by
  induction ks generalizing b with
  | nil => exact .done _
  | cons k rest ih =>
    exact .bind (.isOwnEnumerable ho) fun _ _ h₁ _ => .mapAny (ih (ho.mono h₁)) _

theorem enumerableOwnKeys (ho : D.Seen b o) :
    Routine D b Any fun eng => eng.enumerableOwnKeys o :=
  .bind (.ownKeys ho) fun _ _ h₁ _ => .keepEnumerable (ho.mono h₁) _

theorem enumerateKeys (ho : D.Seen b o) (ks : List Key) (visited : Std.TreeSet Key) :
    Routine D b Any fun eng => eng.enumerateKeys o ks visited := by
  induction ks generalizing b visited with
  | nil => exact .done _
  | cons k rest ih =>
    simp only [Engine.enumerateKeys]
    refine .ite (fun _ => ih ho _) fun _ => ?_
    exact .bind (.isOwnEnumerable ho) fun _ _ h₁ _ => .mapAny (ih (ho.mono h₁) _) _

theorem enumerateChain (fuel : Nat) {o : Option Ref} (ho : D.Seen b o)
    (visited : Std.TreeSet Key) :
    Routine D b Any fun eng => eng.enumerateChain fuel o visited := by
  induction fuel generalizing b o visited with
  | zero =>
    cases o with
    | none => exact .done _
    | some o => exact .outOfFuel
  | succ fuel ih =>
    cases o with
    | none => exact .done _
    | some o =>
      have ho := seen_some.1 ho
      simp only [Engine.enumerateChain]
      refine .bind (.ownKeys ho) fun b₁ own h₁ _ => ?_
      refine .bind (.enumerateKeys (ho.mono h₁) own visited) fun b₂ names h₂ _ => ?_
      exact .bind .heap fun _ h _ hh => .mapAny (ih (hh.prototypeOf o) _) _

/-- A longer walk gives what a walk to the end of a chain gives. -/
theorem lags_enumerateChain (eng : Engine) {n n' : Nat} (hn : n ≤ n') (o : Option Ref)
    (visited : Std.TreeSet Key) (m : Machine) :
    Run.Lags (eng.enumerateChain n o visited m) (eng.enumerateChain n' o visited m) := by
  induction n generalizing n' o visited m with
  | zero =>
    cases o with
    | none => cases n' <;> exact .refl
    | some o => exact .outOfFuel m _
  | succ n ih =>
    obtain ⟨n', rfl⟩ : ∃ k, n' = k + 1 := ⟨n' - 1, by omega⟩
    cases o with
    | none => exact .refl
    | some o =>
      rw [Engine.enumerateChain, Engine.enumerateChain]
      refine .bind .refl fun own m₁ _ => .bind .refl fun step m₂ _ => ?_
      exact .bind .refl fun heap m₃ _ =>
        .bind (ih (Nat.le_of_succ_le_succ hn) _ _ _) fun _ _ _ => .refl

theorem enumerate (ho : D.Seen b o) : Routine D b D.Seen fun eng => eng.enumerate o := by
  refine .bind .proxyEnumerate? fun b₁ found h₁ hfound => ?_
  cases found with
  | some iterator => exact .give (seen_some.1 hfound)
  | none =>
    refine .limit (f := fun limit eng => eng.enumerateChain limit (some o) ∅ >>= fun names =>
      Engine.newIterator (.list (names.map Key.toValue).toArray)) (fun n => ?_)
      fun n n' eng m hn => .bind (lags_enumerateChain eng hn _ _ m) fun _ _ _ => .refl
    refine .bind (.enumerateChain n (seen_some.2 (ho.mono h₁)) ∅) fun b₂ names _ _ => ?_
    refine .newIterator (seen_list.2 fun v hv => ?_)
    obtain ⟨k, -, rfl⟩ := List.mem_map.1 hv
    exact seen_toValue

/-! ## Accessors -/

theorem defineAccessor {key f : Value} (half : AccessorHalf) (hr : D.Seen b receiver)
    (hk : D.Seen b key) (hf : D.Seen b f) :
    Routine D b Any fun eng => eng.defineAccessor half receiver key f := by
  -- the definition itself, once the object and the function are known
  have hdefine {b' : Nat} {o : Ref} {g : Option Ref} (hb : b ≤ b') (ho : D.Seen b' o)
      (hg : D.Seen b' g) : Routine D b' Any fun eng =>
        (eng.toPropertyKey key >>= fun k => eng.definePropertyOrThrow o k (half.descriptor g)) :=
    .bind (.toPropertyKey (hk.mono hb)) fun _ _ h₁ _ =>
      .definePropertyOrThrow (ho.mono h₁) (hg.mono h₁).descriptor
  have hfunction {b' : Nat} {o : Ref} (hb : b ≤ b') (ho : D.Seen b' o) :
      Routine D b' Any fun eng => (do
        let f ←
          if f.isUndefined then pure none
          else
            match ← Run.callable? f with
            | some f => pure (some f)
            | none => Run.fail .accessorFunction
        let k ← eng.toPropertyKey key
        eng.definePropertyOrThrow o k (half.descriptor f)) := by
    refine .ite (fun _ => ?_) fun _ => ?_
    · exact .bind (.give seen_none) fun _ _ h₁ hg => hdefine (Nat.le_trans hb h₁) (ho.mono h₁) hg
    · refine .bind (.callable? (hf.mono hb)) fun b₁ g h₁ hg => ?_
      have hb₁ := Nat.le_trans hb h₁
      have ho₁ := ho.mono h₁
      cases g with
      | none =>
        exact .bind (Q := D.Seen) (.fail _) fun _ _ h₂ hg =>
          hdefine (Nat.le_trans hb₁ h₂) (ho₁.mono h₂) hg
      | some g =>
        exact .bind (.give hg) fun _ _ h₂ hg =>
          hdefine (Nat.le_trans hb₁ h₂) (ho₁.mono h₂) hg
  unfold Engine.defineAccessor
  refine .ite (fun _ => ?_) fun _ => ?_
  · exact .bind (.give seen_intrinsic) fun _ _ h₁ ho => hfunction h₁ ho
  · exact .bind (.toObject hr) fun _ _ h₁ ho => hfunction h₁ ho

theorem findAccessor (half : AccessorHalf) {os : List Ref} (hos : D.Seen b os) :
    Routine D b D.Seen fun eng => eng.findAccessor half k os := by
  induction os generalizing b with
  | nil => exact .give seen_undefined
  | cons o rest ih =>
    obtain ⟨ho, hrest⟩ := seen_cons.1 hos
    simp only [Engine.findAccessor]
    refine .bind (.getOwnProperty ho) fun b₁ found h₁ hfound => ?_
    cases found with
    | none => exact ih (hrest.mono h₁)
    | some d =>
      have hpick := (seen_some.1 hfound).pick half
      simp only [Option.bind_some]
      cases hp : half.pick d with
      | none => exact ih (hrest.mono h₁)
      | some f => exact .give (seen_object.2 (seen_ref.1 (seen_some.1 (hp ▸ hpick))))

theorem lookupAccessor {key : Value} (half : AccessorHalf) (hr : D.Seen b receiver)
    (hk : D.Seen b key) : Routine D b D.Seen fun eng => eng.lookupAccessor half receiver key := by
  refine .bind (.toObject hr) fun b₁ o h₁ ho => ?_
  refine .bind (.toPropertyKey (hk.mono h₁)) fun b₂ k h₂ _ => ?_
  refine .bind .heap fun b₃ h h₃ hh => .findAccessor half ?_
  exact hh.ancestorsWithin _ _ (seen_some.2 ((ho.mono h₂).mono h₃))

/-! ## Making proxies -/

theorem readOperations {handler : Ref} (hh : D.Seen b handler) (ops : List HandlerOperation) :
    Routine D b D.Seen fun eng => eng.readOperations handler ops := by
  induction ops generalizing b with
  | nil => exact .give seen_nil
  | cons op rest ih =>
    simp only [Engine.readOperations]
    refine .bind (.field? hh) fun b₁ found h₁ hfound => ?_
    cases found with
    | none => exact ih (hh.mono h₁)
    | some f =>
      exact .consSeen (seen_pair.2 ⟨seen_operation, seen_some.1 hfound⟩) (ih (hh.mono h₁))

theorem readHandler {handler : Ref} (hh : D.Seen b handler) :
    Routine D b D.Seen fun eng => eng.readHandler handler :=
  .map (.readOperations hh _) fun _ _ h₁ hops _ h₂ =>
    seen_handler.2 ⟨(hh.mono h₁).mono h₂, hops.mono h₂⟩

theorem adapt {handler : Ref} {callTraps : Option CallTraps} (hh : D.Seen b handler)
    (hc : D.Seen b callTraps) : Routine D b D.Seen fun eng => eng.adapt handler callTraps := by
  refine .bind (.readHandler hh) fun b₁ h h₁ hh₁ => ?_
  refine .bind (.beside (fun _ => rfl) (fun _ => rfl) (fun _ => rfl) (fun _ => rfl)
    fun _ _ hm => hm) fun b₂ _ h₂ _ => ?_
  exact .give (seen_adapted.2 ⟨hh₁.mono h₂, (hc.mono h₁).mono h₂⟩)

theorem newProxy {target : Ref} {traps : TrapTable}
    (ht : traps.exposes = true → D.Seen b target) (htraps : D.Seen b traps)
    (hlive : traps.exposes = false → target.index < b) :
    Routine D b D.Seen fun _ => Engine.newProxy target traps := by
  refine .allocate (seen_new.2 ⟨seen_none, seen_proxy.2 ⟨ht, htraps⟩⟩)
    (Object.regular_new _ trivial) ?_
  intro r hr
  cases traps with
  | adapted h c =>
    cases hr
    exact hlive rfl
  | _ => cases hr

theorem requireHandler (hv : D.Seen b v) : Routine D b D.Seen fun _ => Engine.requireHandler v := by
  cases v with
  | object r => exact .give (seen_ref.2 (seen_object.1 hv))
  | _ => exact .fail _

theorem proxyCreate {handler proto : Value} (hh : D.Seen b handler) (hp : D.Seen b proto) :
    Routine D b D.Seen fun eng => eng.proxyCreate handler proto := by
  refine .bind (.requireHandler hh) fun b₁ handler h₁ hh₁ => ?_
  have hmake {b' : Nat} {p : Option Ref} (hb : b₁ ≤ b') (hp : D.Seen b' p) :
      Routine D b' D.Seen fun eng => (do
        let target ← Engine.newObject p
        Engine.newProxy target (← eng.adapt handler none)) := by
    refine .bind (.newObjectLive hp) fun b₂ target h₂ ht => ?_
    exact .bind (.adapt ((hh₁.mono hb).mono h₂) seen_none) fun _ _ h₃ htraps =>
      .newProxy (fun _ => ht.1.mono h₃) htraps fun _ => Nat.lt_of_lt_of_le ht.2 h₃
  have hp₁ := hp.mono h₁
  cases proto with
  | object r =>
    exact .bind (.give (seen_some.2 (seen_ref.2 (seen_object.1 hp₁)))) fun _ _ h₂ hp => hmake h₂ hp
  | null => exact .bind (.give seen_none) fun _ _ h₂ hp => hmake h₂ hp
  | undefined => exact .bind (.give seen_none) fun _ _ h₂ hp => hmake h₂ hp
  | _ => exact .bind (Q := D.Seen) (.fail _) fun _ _ h₂ hp => hmake h₂ hp

theorem proxyCreateFunction {handler call : Value} {construct : Option Value}
    (hh : D.Seen b handler) (hcall : D.Seen b call) (hconstruct : D.Seen b construct) :
    Routine D b D.Seen fun eng => eng.proxyCreateFunction handler call construct := by
  refine .bind (.requireHandler hh) fun b₁ handler h₁ hh₁ => ?_
  refine .bind (.callable? (hcall.mono h₁)) fun b₂ f h₂ hf => ?_
  cases f with
  | none => exact .fail _
  | some f =>
    have hf := seen_some.1 hf
    have hmake {b' : Nat} {g : Ref} (hb : b₂ ≤ b') (hg : D.Seen b' g) :
        Routine D b' D.Seen fun eng => (do
          let target ← Engine.newFunction none .empty 0 ⟨.native .nothing, .empty, none⟩
          Engine.newProxy target (← eng.adapt handler (some ⟨f, g⟩))) := by
      refine .bind (.newFunctionLive seen_none seen_native _ _) fun b₃ target h₃ ht => ?_
      refine .bind (.adapt (((hh₁.mono h₂).mono hb).mono h₃) (seen_some.2 (seen_callTraps.2
        ⟨(hf.mono hb).mono h₃, hg.mono h₃⟩))) fun _ _ h₄ htraps => ?_
      exact .newProxy (fun _ => ht.1.mono h₄) htraps fun _ => Nat.lt_of_lt_of_le ht.2 h₄
    cases construct with
    | none => exact .bind (.give hf) fun _ _ h₃ hg => hmake h₃ hg
    | some v =>
      have hv := ((seen_some.1 hconstruct).mono h₁).mono h₂
      refine .bind (.callable? hv) fun b₃ g h₃ hg => ?_
      cases g with
      | none =>
        exact .bind (Q := D.Seen) (.fail _) fun _ _ h₄ hg => hmake (Nat.le_trans h₃ h₄) hg
      | some g =>
        exact .bind (.give (seen_some.1 hg)) fun _ _ h₄ hg => hmake (Nat.le_trans h₃ h₄) hg

end Routine

end ObjectModel
