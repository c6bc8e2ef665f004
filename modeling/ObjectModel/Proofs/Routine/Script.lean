import ObjectModel.Proofs.Routine.Builtin
import ObjectModel.Script.Evaluate

/-!
# Routines of scripts

Showing values, reading operands and every family of operations as routines.  Only here are throws
caught, so the disciplines are scripted ones.
-/

namespace ObjectModel

open Discipline

variable {D : Discipline} {b : Nat}

namespace Discipline

@[simp]
theorem seen_result {v : Value} : D.Seen b (Result.value v) ↔ D.Seen b v := Iff.rfl

@[simp]
theorem seen_plain {p : Plain} : D.Seen b (Result.plain p) := fun _ h => h.elim

theorem Seen.toValue {x : Result} (h : D.Seen b x) : D.Seen b x.toValue := by
  cases x with
  | value v => exact h
  | plain p => exact seen_undefined

/-- An operation may hold an operand's number only, an expression its literals. -/
theorem Seen.operand {op : Operation Nat} {es : List Expr} {storeAs : Option String}
    (h : D.Seen b (Expr.operation op es storeAs)) (i : Nat) : D.Seen b (Expr.operand es i) := by
  have hes : D.Seen b es := by
    rintro r ⟨e, he, hr⟩
    exact h r (.operand he hr)
  refine hes.getD (fun r hr => ?_) i
  cases hr with
  | value hv => exact seen_undefined r hv

end Discipline

namespace Routine

/-! ## Showing -/

theorem numberObject (r : Ref) : Routine D b Any fun _ => Run.numberObject r :=
  .act _ fun _ _ hm =>
    ⟨⟨D.keeps_change (.beside rfl rfl rfl rfl), hm, Nat.le_refl _⟩, trivial⟩

theorem numberSymbol (s : Symbol) : Routine D b Any fun _ => Run.numberSymbol s :=
  .act _ fun _ _ hm =>
    ⟨⟨D.keeps_change (.beside rfl rfl rfl rfl), hm, Nat.le_refl _⟩, trivial⟩

theorem showObject (r : Ref) : Routine D b Any fun _ => Run.showObject r := by
  refine .bind .machine fun b₁ m _ _ => ?_
  cases Run.objectName? m r with
  | some name => exact .done _
  | none => exact .mapAny (.numberObject r) _

theorem showSymbol (s : Symbol) : Routine D b Any fun _ => Run.showSymbol s := by
  refine .bind .machine fun b₁ m _ _ => ?_
  cases Run.symbolName? m s with
  | some name => exact .done _
  | none => exact .mapAny (.numberSymbol s) _

theorem showValue (v : Value) : Routine D b Any fun _ => Run.showValue v := by
  cases v with
  | symbol s => exact .showSymbol s
  | object r => exact .showObject r
  | _ => exact .done _

theorem showValues (vs : List Value) : Routine D b Any fun _ => Run.showValues vs := by
  induction vs generalizing b with
  | nil => exact .done _
  | cons v rest ih => exact .bind (.showValue v) fun _ _ _ _ => .mapAny ih _

theorem showKey (k : Key) : Routine D b Any fun _ => Run.showKey k := by
  cases k with
  | index i => exact .done _
  | _ => exact .mapAny (.showValue _) _

theorem showKeys (ks : List Key) : Routine D b Any fun _ => Run.showKeys ks := by
  induction ks generalizing b with
  | nil => exact .done _
  | cons k rest ih => exact .bind (.showKey k) fun _ _ _ _ => .mapAny ih _

theorem showField (v : Option Value) : Routine D b Any fun _ => Run.showField v := by
  cases v with
  | none => exact .done _
  | some v => exact .mapAny (.showValue v) _

theorem showDescriptor (d : Descriptor) : Routine D b Any fun _ => Run.showDescriptor d :=
  .bind (.showField _) fun _ _ _ _ => .bind (.showField _) fun _ _ _ _ => .mapAny (.showField _) _

theorem showDescriptor? (d : Option Descriptor) :
    Routine D b Any fun _ => Run.showDescriptor? d := by
  cases d with
  | none => exact .done _
  | some d => exact .mapAny (.showDescriptor d) _

theorem logCall (label : String) (receiver : Value) (arguments : List Value)
    (newTarget : Option Ref) :
    Routine D b Any fun _ => Run.logCall label receiver arguments newTarget :=
  .bind (.showValue _) fun _ _ _ _ => .bind (.showValues _) fun _ _ _ _ =>
    .bind (.showField _) fun _ _ _ _ =>
      .beside (fun _ => rfl) (fun _ => rfl) (fun _ => rfl) (fun _ => rfl) fun _ _ hm => hm

/-! ## Operands -/

/-- Operands that are evaluated by routines and stand for expressions that have been seen. -/
structure Reads {ε : Type} (D : Discipline) (b : Nat) (ops : Engine → Operands ε)
    (expression : ε → Expr) : Prop where
  evaluate : ∀ b' e, b ≤ b' → Routine D b' D.Seen fun eng => (ops eng).evaluate e
  expression_eq : ∀ eng, (ops eng).expression = expression
  seen : ∀ e, D.Seen b (expression e)

section Operands

variable {ε : Type} {ops : Engine → Operands ε} {expression : ε → Expr}

theorem Reads.mono {b' : Nat} (h : Reads D b ops expression) (hb : b ≤ b') :
    Reads D b' ops expression :=
  ⟨fun b'' e hb' => h.evaluate b'' e (Nat.le_trans hb hb'), h.expression_eq,
    fun e => (h.seen e).mono hb⟩

variable (h : Reads D b ops expression)
include h

theorem operand (e : ε) : Routine D b D.Seen fun eng => (ops eng).evaluate e :=
  h.evaluate b e (Nat.le_refl b)

theorem evaluateAll (es : List ε) : Routine D b D.Seen fun eng => (ops eng).evaluateAll es := by
  induction es generalizing b with
  | nil => exact .give seen_nil
  | cons e rest ih =>
    exact .bind (.operand h e) fun _ _ h₁ hv => .consSeen hv (ih (h.mono h₁))

theorem evaluate? (e : Option ε) : Routine D b D.Seen fun eng => (ops eng).evaluate? e := by
  cases e with
  | none => exact .give seen_none
  | some e => exact .mapSome (.operand h e)

theorem objectOperand (field : String) (e : ε) :
    Routine D b D.Seen fun eng => (ops eng).object field e := by
  refine .bind (.operand h e) fun b₁ v _ hv => ?_
  cases v with
  | object r => exact .give (seen_ref.2 (seen_object.1 hv))
  | _ => exact .fail _

theorem object? (e : ε) : Routine D b D.Seen fun eng => (ops eng).object? e :=
  .map (.operand h e) fun _ _ _ hv _ h₂ => (hv.mono h₂).ref?

theorem keyOperand (e : ε) : Routine D b Any fun eng => (ops eng).key eng e :=
  .bind (.operand h e) fun _ _ _ hv => .toPropertyKey hv

theorem numberOperand (e : ε) : Routine D b Any fun eng => (ops eng).number e := by
  refine .bind (.operand h e) fun b₁ v _ _ => ?_
  cases v <;> exact .done _

theorem wordOperand (e : ε) :
    Routine D b (fun _ n => n ≤ Number.maxWord) fun eng => (ops eng).word e :=
  .map (.numberOperand h e) fun _ n _ _ _ _ => n.clampNat_le _

theorem textOperand (e : ε) : Routine D b Any fun eng => (ops eng).text e := by
  refine .bind (.operand h e) fun b₁ v _ _ => ?_
  cases v <;> exact .done _

theorem accessorOperand (e : Option ε) :
    Routine D b D.Seen fun eng => (ops eng).accessor e := by
  cases e with
  | none => exact .give seen_none
  | some e => exact .mapSome (.object? h e)

theorem descriptorOperand (form : DescriptorForm ε) :
    Routine D b D.Seen fun eng => (ops eng).descriptor form := by
  refine .bind (.evaluate? h form.value) fun b₁ value h₁ hvalue => ?_
  refine .bind (.accessorOperand (h.mono h₁) form.get) fun b₂ getter h₂ hgetter => ?_
  refine .bind (.accessorOperand ((h.mono h₁).mono h₂) form.set) fun b₃ setter h₃ hsetter => ?_
  exact .give (seen_descriptor.2 ⟨(hvalue.mono h₂).mono h₃, hgetter.mono h₃, hsetter⟩)

/-! ## Control -/

omit h in
theorem setVariable {v : Value} (hv : D.Seen b v) (name : String) :
    Routine D b Any fun _ => Run.setVariable name v := by
  refine .beside (fun _ => rfl) (fun _ => rfl) (fun _ => rfl) (fun _ => rfl) fun m hb hm => ?_
  refine ⟨hm.1, ?_⟩
  rintro r (hr | hr | ⟨e, he, hr⟩ | hr)
  · exact hm.2 r (Or.inl hr)
  · exact hm.2 r (Or.inr (Or.inl hr))
  · rcases List.mem_cons.1 he with rfl | he
    · exact hr.elim (fun h => h.elim) (hv.mono hb r)
    · exact hm.bindings r ⟨e, (List.mem_filter.1 he).1, hr⟩
  · exact hm.caught r hr

omit h in
theorem setCaught {v : Value} (hv : D.Seen b v) :
    Routine D b Any fun _ => Run.change fun m => { m with caught := v } := by
  refine .beside (fun _ => rfl) (fun _ => rfl) (fun _ => rfl) (fun _ => rfl) fun m hb hm => ?_
  refine ⟨hm.1, ?_⟩
  rintro r (hr | hr | hr | hr)
  · exact hm.2 r (Or.inl hr)
  · exact hm.2 r (Or.inr (Or.inl hr))
  · exact hm.bindings r hr
  · exact hv.mono hb r hr

theorem evaluateSequence (es : List ε) :
    Routine D b D.Seen fun eng => Engine.evaluateSequence (ops eng) es := by
  induction es generalizing b with
  | nil => exact .give seen_undefined
  | cons e rest ih =>
    cases rest with
    | nil => exact .operand h e
    | cons e' rest =>
      simp only [Engine.evaluateSequence]
      exact .bind (.operand h e) fun _ _ h₁ _ => ih (h.mono h₁)

theorem control (hD : D.scripted) (action : Control ε) :
    Routine D b D.Seen fun eng => Engine.control (ops eng) action := by
  cases action with
  | give e => exact .operand h e
  | sequence steps => exact .evaluateSequence h steps
  | choose condition yes no =>
    exact .bind (.operand h condition) fun _ _ h₁ _ =>
      .ite (fun _ => .operand (h.mono h₁) yes) fun _ => .operand (h.mono h₁) no
  | select on cases' otherwise =>
    refine .bind (.operand h on) fun b₁ v h₁ _ => ?_
    cases v <;> exact .operand (h.mono h₁) _
  | attempt body recovery =>
    refine .bind (.attempt hD (.operand h body)) fun b₁ outcome h₁ houtcome => ?_
    cases outcome with
    | ok v => exact .give houtcome
    | error v =>
      refine .bind (.setCaught houtcome) fun b₂ _ h₂ _ => ?_
      have hv : D.Seen b₁ v := houtcome
      refine .bind (.setVariable (hv.mono h₂) "error") fun b₃ _ h₃ _ => ?_
      exact .operand (((h.mono h₁).mono h₂).mono h₃) recovery
  | raise kind message =>
    cases kind with
    | some kind => exact .fail _
    | none => exact .throwValue seen_undefined
  | rethrow =>
    exact .bind .machine fun _ _ _ hm => .throwValue fun r hr => hm r (Or.inr (Or.inr (Or.inr hr)))
  | unknown name => exact .fail _

theorem pair (action : Pairing) (x y : ε) :
    Routine D b D.Seen fun eng => Engine.pair (ops eng) action x y := by
  cases action with
  | add =>
    exact .bind (.numberOperand h x) fun _ _ h₁ _ =>
      .map (.numberOperand (h.mono h₁) y) fun _ _ _ _ _ _ => seen_number
  | _ =>
    exact .bind (.operand h x) fun _ _ h₁ _ =>
      .map (.operand (h.mono h₁) y) fun _ _ _ _ _ _ => seen_bool

/-! ## Making values -/

theorem addProperties {o : Ref} (ho : D.Seen b o) (ps : List (ε × ε)) :
    Routine D b Any fun eng => eng.addProperties (ops eng) o ps := by
  induction ps generalizing b with
  | nil => exact .done _
  | cons p rest ih =>
    simp only [Engine.addProperties]
    refine .bind (.keyOperand h p.1) fun b₁ key h₁ _ => ?_
    refine .bind (.operand (h.mono h₁) p.2) fun b₂ value h₂ hv => ?_
    have ho₂ := (ho.mono h₁).mono h₂
    refine .bind (.createDataPropertyOrThrow ho₂ hv) fun b₃ _ h₃ _ => ?_
    exact ih (((h.mono h₁).mono h₂).mono h₃) (ho₂.mono h₃)

omit h in
theorem requirePrimitive (v : Value) : Routine D b Any fun _ => Engine.requirePrimitive v := by
  unfold Engine.requirePrimitive
  cases v.primitive? with
  | some p => exact .done _
  | none => exact .fail _

theorem exoticKind (slots : Exotic) (value : ε) :
    Routine D b (fun b' kind => D.Seen b' kind ∧ kind.hidden? = none ∧ kind.Bounded) fun eng =>
      Engine.exoticKind (ops eng) slots value := by
  cases slots with
  | ordinary => exact .pure fun _ _ => ⟨nofun, rfl, trivial⟩
  | array => exact .pure fun _ _ => ⟨nofun, rfl, Nat.zero_le _⟩
  | map => exact .pure fun _ _ => ⟨seen_empty, rfl, trivial⟩
  | set => exact .pure fun _ _ => ⟨seen_empty, rfl, trivial⟩
  | wrapper =>
    exact .bind (.operand h value) fun _ v _ _ =>
      .map (.requirePrimitive v) fun _ _ _ _ _ _ => ⟨nofun, rfl, trivial⟩

omit h in
theorem nest (inArrays : Bool) (k : Key) (depth : Nat) {v : Value} (hv : D.Seen b v) :
    Routine D b D.Seen fun _ => Engine.nest inArrays k depth v := by
  induction depth generalizing b v with
  | zero => exact .give hv
  | succ depth ih =>
    simp only [Engine.nest]
    cases inArrays with
    | true =>
      exact .bind (.newArray (seen_cons.2 ⟨hv, seen_nil⟩)) fun _ _ _ ho =>
        ih (seen_object.2 (seen_ref.1 ho))
    | false =>
      exact .bind (.newPlainObject (seen_cons.2 ⟨seen_pair.2 ⟨seen_key, hv⟩, seen_nil⟩))
        fun _ _ _ ho => ih (seen_object.2 (seen_ref.1 ho))

theorem newScriptFunction {proto : Option Ref} (hp : D.Seen b proto) (form : FunctionForm ε) :
    Routine D b D.Seen fun eng => Engine.newScriptFunction (ops eng) proto form := by
  simp only [Engine.newScriptFunction, h.expression_eq]
  refine .newFunction hp ?_ _ _
  rintro r ⟨e, he, hr⟩
  obtain ⟨e', -, rfl⟩ := List.mem_map.1 he
  exact h.seen e' r hr

omit h in
theorem seen_populatedProperty {d : Descriptor} (hd : D.Seen b d) :
    D.Seen b (Engine.populatedProperty d) := by
  obtain ⟨hv, -, -⟩ := seen_descriptor.1 hd
  unfold Engine.populatedProperty
  split
  · next heq _ =>
    rw [heq] at hv
    exact seen_hidden.2 (seen_some.1 hv)
  · exact hd.ofDescriptor

theorem populatedProperties (ps : List (ε × DescriptorForm ε)) :
    Routine D b D.Seen fun eng => eng.populatedProperties (ops eng) ps := by
  induction ps generalizing b with
  | nil => exact .give seen_nil
  | cons p rest ih =>
    simp only [Engine.populatedProperties]
    refine .bind (.keyOperand h p.1) fun b₁ key h₁ _ => ?_
    refine .bind (.descriptorOperand (h.mono h₁) p.2) fun b₂ d h₂ hd => ?_
    exact .consSeen (seen_pair.2 ⟨seen_key, seen_populatedProperty hd⟩)
      (ih ((h.mono h₁).mono h₂))

theorem hiddenProperties (ps : List (ε × ε)) :
    Routine D b D.Seen fun eng => eng.hiddenProperties (ops eng) ps := by
  induction ps generalizing b with
  | nil => exact .give seen_nil
  | cons p rest ih =>
    simp only [Engine.hiddenProperties]
    refine .bind (.keyOperand h p.1) fun b₁ key h₁ _ => ?_
    refine .bind (.operand (h.mono h₁) p.2) fun b₂ v h₂ hv => ?_
    exact .consSeen (seen_pair.2 ⟨seen_key, seen_hidden.2 hv⟩) (ih ((h.mono h₁).mono h₂))

omit h in
theorem newProbe {proto : Option Ref} (hp : D.Seen b proto) :
    Routine D b D.Seen fun _ => Engine.newProbe proto :=
  .newFunction hp seen_native _ _

omit h in
theorem probeProperties (wanted : Bool) :
    Routine D b D.Seen fun _ => Engine.probeProperties wanted := by
  refine .ite (fun _ => ?_) fun _ => .give seen_nil
  refine .map (.newProbe seen_none) fun _ f _ hf _ h₂ => seen_cons.2 ⟨?_, seen_nil⟩
  exact seen_pair.2 ⟨seen_key, seen_data.2 (seen_object.2 (seen_ref.1 (hf.mono h₂)))⟩

omit h in
/-- The probe with further properties is one new object. -/
theorem populatedProbe {proto : Option Ref} {ps : List (Key × Property)} (hp : D.Seen b proto)
    (hps : D.Seen b ps) : Routine D b D.Seen fun _ => (do
      let f ← Engine.newProbe proto
      Run.update f fun o => o.populate ps o.extensible
      pure (Value.object f)) := by
  let o : Object :=
    { Object.new (some (proto.getD Intrinsic.functionPrototype.ref))
        (.function ⟨.native .probe, "probe", none⟩) with
      properties :=
        (PropertyTable.empty.insert .length (.data (.ofNat 3) false false true)).insert
          "name" (.data (.text "probe") false false true) }
  have heq : (do
      let f ← Engine.newProbe proto
      Run.update f fun o => o.populate ps o.extensible
      pure (Value.object f)) =
      (Run.allocate (o.populate ps o.extensible) >>= fun f => pure (Value.object f)) := by
    funext m
    show EStateM.Result.ok _ (m.withHeap ((m.heap.allocate o).2.modify (m.heap.allocate o).1 _)) = _
    rw [Heap.modify_allocate]
    rfl
  simp only [heq]
  refine .objectValue (.allocate ?_ (Object.regular_of_not_isArray rfl) nofun)
  have hdata : D.Seen b (⟨.native .probe, "probe", none⟩ : FunctionData) := seen_native
  have hnew : D.Seen b (Object.new (some (proto.getD Intrinsic.functionPrototype.ref))
      (.function ⟨.native .probe, "probe", none⟩)) :=
    seen_new.2 ⟨seen_some.2 (hp.getD' seen_intrinsic), hdata⟩
  exact (hnew.withProperties (Seen.insert (Seen.insert seen_empty seen_key seen_ofNat) seen_key
    seen_text)).populate hps _

theorem create (action : Creation ε) :
    Routine D b D.Seen fun eng => eng.create (ops eng) action := by
  cases action with
  | object proto properties =>
    have hmake {b' : Nat} {p : Option Ref} (hb : b ≤ b') (hp : D.Seen b' p) :
        Routine D b' D.Seen fun eng => (do
          let o ← Engine.newObject p
          eng.addProperties (ops eng) o properties
          pure (Value.object o)) := by
      refine .bind (.newObject hp) fun b₁ o h₁ ho => ?_
      refine .bind (.addProperties ((h.mono hb).mono h₁) ho properties) fun _ _ h₂ _ => ?_
      exact .give (seen_object.2 (seen_ref.1 (ho.mono h₂)))
    cases proto with
    | none => exact .bind (.give (seen_some.2 seen_intrinsic)) fun _ _ h₁ hp => hmake h₁ hp
    | some e => exact .bind (.object? h e) fun _ _ h₁ hp => hmake h₁ hp
  | exotic proto slots value =>
    exact .bind (.exoticKind h slots value) fun _ _ _ hk =>
      .objectValue (.newOfClass _ hk.1 hk.2.2 fun _ hr => absurd (hk.2.1.symm.trans hr) nofun)
  | intrinsic i => exact .give (seen_object.2 (D.knows_intrinsic _ _))
  | array length proto items =>
    refine .bind (.wordOperand h length) fun b₁ n h₁ hn => ?_
    refine .bind (.object? (h.mono h₁) proto) fun b₂ p h₂ hp => ?_
    have hnew : D.Seen b₂
        (Object.new (some (p.getD Intrinsic.arrayPrototype.ref)) (.array n true)) :=
      seen_new.2 ⟨seen_some.2 (hp.getD' seen_intrinsic), nofun⟩
    refine .bind (.allocate hnew (Object.regular_new _ hn) nofun) fun b₃ o h₃ ho => ?_
    refine .bind (.addProperties (((h.mono h₁).mono h₂).mono h₃) ho items) fun b₄ _ h₄ _ => ?_
    exact .give (seen_object.2 (seen_ref.1 (ho.mono h₄)))
  | nest value key depth inArrays =>
    refine .bind (.operand h value) fun b₁ v h₁ hv => ?_
    refine .bind (.keyOperand (h.mono h₁) key) fun b₂ k h₂ _ => ?_
    refine .bind (.wordOperand ((h.mono h₁).mono h₂) depth) fun b₃ n h₃ _ => ?_
    exact .nest inArrays k n ((hv.mono h₂).mono h₃)
  | wrap value =>
    exact .bind (.operand h value) fun _ v _ _ => .bind (.requirePrimitive v) fun _ _ _ _ =>
      .objectValue (.newWrapper _)
  | unwrap value =>
    exact .bind (.operand h value) fun _ v _ _ =>
      .map (.requirePrimitive v) fun _ _ _ _ _ _ => seen_primitive
  | date time =>
    exact .bind (.numberOperand h time) fun _ _ _ _ =>
      .objectValue (.newOfClass _ nofun trivial nofun)
  | regexp pattern flags => exact .objectValue (.newRegexp pattern flags)
  | error kind message => exact .objectValue (.newError kind message)
  | symbol description => exact .map (.newSymbol description) fun _ _ _ _ _ _ => seen_symbol
  | function proto form =>
    exact .bind (.object? h proto) fun _ _ h₁ hp =>
      .objectValue (.newScriptFunction (h.mono h₁) hp form)
  | populated proto properties extensible probe =>
    refine .bind (.object? h proto) fun b₁ p h₁ hp => ?_
    refine .bind (.populatedProperties (h.mono h₁) properties) fun b₂ stored h₂ hstored => ?_
    refine .bind (.probeProperties probe) fun b₃ probes h₃ hprobes => ?_
    have hnew : D.Seen b₃ (Object.new p .ordinary) :=
      seen_new.2 ⟨(hp.mono h₂).mono h₃, nofun⟩
    refine .objectValue (.allocate (hnew.populate ?_ _) (Object.regular_of_not_isArray rfl) nofun)
    exact seen_append.2 ⟨hstored.mono h₃, hprobes⟩
  | probe proto properties =>
    refine .bind (.object? h proto) fun b₁ p h₁ hp => ?_
    exact .bind (.hiddenProperties (h.mono h₁) properties) fun _ _ h₂ hps =>
      .populatedProbe (hp.mono h₂) hps

end Operands

end Routine

end ObjectModel
