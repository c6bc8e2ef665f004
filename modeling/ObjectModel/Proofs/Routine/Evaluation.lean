import ObjectModel.Proofs.Routine.Script
import ObjectModel.Script.Evaluate

/-!
# Routines of evaluation

The remaining families of operations, and the evaluation of expressions, as routines of every
scripted discipline.
-/

namespace ObjectModel

namespace Discipline

variable {D : Discipline} {b : Nat}

theorem seen_frame {frame : Frame} :
    D.Seen b frame ↔
      D.Seen b frame.receiver ∧ D.Seen b frame.arguments ∧ D.Seen b frame.newTarget :=
  ⟨fun h => ⟨fun r hr => h r (Or.inl hr), fun r hr => h r (Or.inr (Or.inl hr)),
    fun r hr => h r (Or.inr (Or.inr hr))⟩,
    fun h r hr => hr.elim (h.1 r) fun hr => hr.elim (h.2.1 r) (h.2.2 r)⟩

end Discipline

namespace Routine

open Discipline

variable {D : Discipline} {b : Nat}

section Operands

variable {ε : Type} {ops : Engine → Operands ε} {expression : ε → Expr}

variable (h : Reads D b ops expression)
include h

/-! ## Results -/

omit h in
theorem valueResult {x : Engine → Run Value} (hx : Routine D b D.Seen x) :
    Routine D b D.Seen fun eng => x eng >>= fun v => pure (Result.value v) :=
  .map hx fun _ _ _ hv _ h₂ => hv.mono h₂

omit h in
theorem objectResult {x : Engine → Run Ref} (hx : Routine D b D.Seen x) :
    Routine D b D.Seen fun eng => x eng >>= fun r => pure (Result.value (.object r)) :=
  .map hx fun _ _ _ hr _ h₂ => seen_result.2 (seen_object.2 (seen_ref.1 (hr.mono h₂)))

omit h in
theorem plainResult {α : Type} {Q : Nat → α → Prop} {x : Engine → Run α} (hx : Routine D b Q x)
    (f : α → Plain) : Routine D b D.Seen fun eng => x eng >>= fun a => pure (Result.plain (f a)) :=
  .map hx fun _ _ _ _ _ _ => seen_plain

omit h in
theorem boolResult {x : Engine → Run Bool} (hx : Routine D b Any x) :
    Routine D b D.Seen fun eng => Engine.boolResult (x eng) :=
  .map hx fun _ _ _ _ _ _ => seen_result.2 seen_bool

omit h in
theorem unitResult {x : Engine → Run Unit} (hx : Routine D b Any x) :
    Routine D b D.Seen fun eng => Engine.unitResult (x eng) :=
  .map hx fun _ _ _ _ _ _ => seen_result.2 seen_undefined

/-! ## Conversion, texts and tables -/

theorem convert (action : Conversion) (e : ε) :
    Routine D b D.Seen fun eng => eng.convert (ops eng) action e := by
  refine .bind (.operand h e) fun b₁ v h₁ hv => ?_
  cases action with
  | primitive hint => exact .valueResult (.toPrimitive hv _)
  | boolean => exact .give (seen_result.2 seen_bool)
  | number => exact .map (.toNumber hv) fun _ _ _ _ _ _ => seen_result.2 seen_number
  | integer => exact .map (.toIntegerOrInfinity hv) fun _ _ _ _ _ _ => seen_result.2 seen_number
  | word => exact .map (.toWord hv) fun _ _ _ _ _ _ => seen_result.2 seen_ofNat
  | length => exact .map (.toLength hv) fun _ _ _ _ _ _ => seen_result.2 seen_ofNat
  | text => exact .map (.toText hv) fun _ _ _ _ _ _ => seen_result.2 seen_text
  | object => exact .objectResult (.toObject hv)
  | display => exact .plainResult (.toText hv) _
  | key =>
    exact .bind (.toPropertyKey hv) fun _ k _ _ => .bind (.showKey k) fun _ _ _ _ =>
      .plainResult .heap _
  | classify => exact .plainResult .heap _

omit h in
theorem makeText (c : TextConstruction) : Routine D b Any fun _ => Run.makeText c :=
  .act _ fun _ _ hm =>
    ⟨⟨D.keeps_change (.beside rfl rfl rfl rfl), hm, Nat.le_refl _⟩, trivial⟩

omit h in
theorem texts : Routine D b Any fun _ => Run.texts :=
  .read (fun m => m.texts) fun _ _ _ => trivial

omit h in
theorem internAll (ts : List Text) : Routine D b Any fun _ => Engine.internAll ts := by
  induction ts generalizing b with
  | nil => exact .done _
  | cons t rest ih => exact .bind (.makeText _) fun _ _ _ _ => .mapAny ih _

omit h in
theorem keyOf (make : String → TextConstruction) (s : String) :
    Routine D b Any fun _ => Engine.keyOf make s := by
  unfold Engine.keyOf
  cases (Text.ofBytes (Wtf8.ofString s).bytes).arrayIndex? with
  | some i => exact .done _
  | none => exact .bind .texts fun _ _ _ _ => .mapAny (.makeText _) _

theorem textAction (action : TextAction ε) :
    Routine D b D.Seen fun eng => Engine.textAction (ops eng) action := by
  cases action with
  | inspect value position search =>
    exact .bind (.textOperand h value) fun _ _ _ _ => .bind (.makeText _) fun _ _ _ _ =>
      .bind (.makeText _) fun _ _ _ _ => .plainResult .texts _
  | concat parts =>
    exact .bind (.evaluateAll h parts) fun _ _ _ _ => .bind (.internAll _) fun _ _ _ _ =>
      .bind (.makeText _) fun _ _ _ _ =>
        .map .texts fun _ _ _ _ _ _ => seen_result.2 seen_text
  | quote value => exact .plainResult (.textOperand h value) _
  | quoteWith value mark => exact .plainResult (.textOperand h value) _
  | key name =>
    exact .bind (.keyOf _ _) fun _ _ _ _ => .bind (.keyOf _ _) fun _ _ _ _ =>
      .plainResult (.showKey _) _

omit h in
theorem showStored (p : Option Property) : Routine D b Any fun _ => Engine.showStored p := by
  cases p with
  | none => exact .done _
  | some p => exact .mapAny (.showDescriptor _) _

theorem tableAction (t : PropertyTable) (k : Key) (action : TableAction ε) :
    Routine D b Any fun eng => Engine.tableAction (ops eng) t k action := by
  cases action with
  | insert form => exact .mapAny (.descriptorOperand h form) _
  | update value =>
    refine .bind (.operand h value) fun b₁ v _ _ => ?_
    cases t.find? k <;> exact .done _
  | remove => exact .mapAny (.showStored _) _
  | get => exact .mapAny (.showStored _) _
  | keys => exact .mapAny (.showKeys _) _
  | _ => exact .done _

theorem tableActions (t : PropertyTable) (actions : List (Option ε × TableAction ε)) :
    Routine D b Any fun eng => eng.tableActions (ops eng) t actions := by
  induction actions generalizing b t with
  | nil => exact .done _
  | cons action rest ih =>
    obtain ⟨key, action⟩ := action
    simp only [Engine.tableActions]
    cases key
    case' some e => refine .bind (.keyOperand h e) fun _ k h₁ _ => ?_
    case' none => refine .bind (.done _) fun _ k h₁ _ => ?_
    all_goals
      refine .bind (.tableAction (h.mono h₁) t k action) fun _ found h₂ _ => ?_
      exact .mapAny (ih ((h.mono h₁).mono h₂) found.1) _

theorem describe (action : Description ε) :
    Routine D b D.Seen fun eng => eng.describe (ops eng) action := by
  cases action with
  | toDescriptor value =>
    exact .bind (.operand h value) fun _ _ _ hv => .bind (.toDescriptor hv) fun _ _ _ _ =>
      .plainResult (.showDescriptor _) _
  | fromDescriptor form =>
    cases form with
    | none => exact .give (seen_result.2 seen_undefined)
    | some form =>
      exact .bind (.descriptorOperand h form) fun _ _ _ hd => .objectResult (.fromDescriptor hd)
  | inspect form =>
    exact .bind (.descriptorOperand h form) fun _ _ _ _ =>
      .plainResult (.showDescriptor _) _
  | method f =>
    exact .bind (.objectOperand h _ f) fun _ _ _ _ =>
      .plainResult (.showDescriptor _) _
  | table actions => exact .plainResult (.tableActions h _ actions) _
  | places x y => exact .give seen_plain

/-! ## Operations on objects -/

omit h in
theorem dumpProperties {o : Ref} (ho : D.Seen b o) (ks : List Key) :
    Routine D b Any fun eng => eng.dumpProperties o ks := by
  induction ks generalizing b with
  | nil => exact .done _
  | cons k rest ih =>
    refine .bind (.getOwnProperty ho) fun b₁ d h₁ _ => ?_
    refine .bind (.showDescriptor? d) fun b₂ view h₂ _ => ?_
    exact .bind (.showKey k) fun _ _ h₃ _ => .mapAny (ih (((ho.mono h₁).mono h₂).mono h₃)) _

omit h in
theorem dump {o : Ref} (ho : D.Seen b o) : Routine D b Any fun eng => eng.dump o := by
  refine .bind .heap fun b₁ heap h₁ _ => .bind (.showValue _) fun b₂ proto h₂ _ => ?_
  have ho₂ := (ho.mono h₁).mono h₂
  exact .bind (.ownKeys ho₂) fun _ keys h₃ _ => .mapAny (.dumpProperties (ho₂.mono h₃) keys) _

/-- An object operand and a key operand. -/
theorem objectAndKey {α : Type} {Q : Nat → α → Prop} {o key : ε}
    {f : Ref → Key → Engine → Run α}
    (hf : ∀ b' r k, b ≤ b' → D.Seen b' r → Routine D b' Q (f r k)) :
    Routine D b Q fun eng => (do
      let r ← (ops eng).object "o" o
      let k ← (ops eng).key eng key
      f r k eng) :=
  .bind (.objectOperand h "o" o) fun _ r h₁ hr => .bind (.keyOperand (h.mono h₁) key)
    fun _ k h₂ _ => hf _ r k (Nat.le_trans h₁ h₂) (hr.mono h₂)

theorem access (action : Access ε) :
    Routine D b D.Seen fun eng => eng.access (ops eng) action := by
  cases action with
  | get o key receiver =>
    refine .objectAndKey h fun b₂ o k hb ho => ?_
    refine .bind (.evaluate? (h.mono hb) receiver) fun b₃ v h₃ hv => ?_
    cases v with
    | none => exact .valueResult (.get (ho.mono h₃))
    | some v => exact .valueResult (.getFor (ho.mono h₃) (seen_some.1 hv))
  | getV value key =>
    exact .bind (.operand h value) fun _ _ h₁ hv => .bind (.keyOperand (h.mono h₁) key)
      fun _ _ h₂ _ => .valueResult (.getV (hv.mono h₂))
  | getMethod value key =>
    refine .bind (.operand h value) fun _ _ h₁ hv => ?_
    refine .bind (.keyOperand (h.mono h₁) key) fun _ _ h₂ _ => ?_
    exact .map (.getMethod (hv.mono h₂)) fun _ _ _ hf _ h₄ => seen_result.2 (hf.mono h₄).elim
  | set o key value receiver throws =>
    refine .objectAndKey h fun b₂ o k hb ho => ?_
    refine .bind (.operand (h.mono hb) value) fun b₃ v h₃ hv => ?_
    refine .bind (.evaluate? ((h.mono hb).mono h₃) receiver) fun b₄ x h₄ hx => ?_
    have ho₄ := (ho.mono h₃).mono h₄
    cases x with
    | none => exact .unitResult (.set ho₄ (hv.mono h₄) throws)
    | some x => exact .boolResult (.setFor ho₄ (hv.mono h₄) (seen_some.1 hx))
  | createDataProperty o key value throws =>
    refine .objectAndKey h fun b₂ o k hb ho => ?_
    refine .bind (.operand (h.mono hb) value) fun b₃ v h₃ hv => .ite (fun _ => ?_) fun _ => ?_
    · exact .unitResult (.createDataPropertyOrThrow (ho.mono h₃) hv)
    · exact .boolResult (.createDataProperty (ho.mono h₃) hv)
  | define o key descriptor throws =>
    refine .objectAndKey h fun b₂ o k hb ho => ?_
    refine .bind (.descriptorOperand (h.mono hb) descriptor) fun b₃ d h₃ hd => ?_
    refine .ite (fun _ => ?_) fun _ => ?_
    · exact .unitResult (.definePropertyOrThrow (ho.mono h₃) hd)
    · exact .boolResult (.defineOwnProperty (ho.mono h₃) hd)
  | delete o key throws =>
    refine .objectAndKey h fun b₂ o k hb ho => .ite (fun _ => ?_) fun _ => ?_
    · exact .unitResult (.deletePropertyOrThrow ho)
    · exact .boolResult (.deleteProperty ho)
  | has o key => exact .objectAndKey h fun _ _ _ _ ho => .boolResult (.hasProperty ho)
  | hasOwn o key => exact .objectAndKey h fun _ _ _ _ ho => .boolResult (.hasOwnProperty ho)
  | getOwnProperty o key =>
    refine .objectAndKey h fun b₂ o k hb ho => .bind (.getOwnProperty ho) fun b₃ d _ _ => ?_
    cases d with
    | none => exact .give (seen_result.2 seen_undefined)
    | some d => exact .plainResult (.showDescriptor d) _
  | ownKeys o =>
    exact .bind (.objectOperand h "o" o) fun _ _ _ ho => .bind (.ownKeys ho) fun _ _ _ _ =>
      .plainResult (.showKeys _) _
  | enumerableOwnKeys o =>
    exact .bind (.objectOperand h "o" o) fun _ _ _ ho => .bind (.enumerableOwnKeys ho)
      fun _ _ _ _ => .plainResult (.showKeys _) _
  | enumerate o =>
    exact .bind (.objectOperand h "o" o) fun _ _ _ ho => .objectResult (.enumerate ho)
  | getPrototypeOf o =>
    exact .bind (.objectOperand h "o" o) fun _ r _ _ => .map .heap fun _ _ _ hh _ h₃ =>
      seen_result.2 ((hh.prototypeOf r).mono h₃).ofRef?
  | setPrototypeOf o proto =>
    exact .bind (.objectOperand h "o" o) fun _ _ h₁ ho => .bind (.object? (h.mono h₁) proto)
      fun _ _ h₂ hp => .boolResult (.setPrototypeOf (ho.mono h₂) hp)
  | preventExtensions o =>
    exact .bind (.objectOperand h "o" o) fun _ r _ _ => .bind (.preventExtensions r)
      fun _ _ _ _ => .give (seen_result.2 seen_bool)
  | dump o => exact .bind (.objectOperand h "o" o) fun _ _ _ ho => .plainResult (.dump ho) id
  | call f receiver arguments raw =>
    refine .ite (fun _ => ?_) fun _ => ?_
    · refine .bind (.objectOperand h "f" f) fun b₁ f h₁ _ => ?_
      refine .bind (.operand (h.mono h₁) receiver) fun b₂ this h₂ hthis => ?_
      refine .bind (.evaluateAll ((h.mono h₁).mono h₂) arguments) fun b₃ values h₃ hvalues => ?_
      exact .valueResult (.callRaw (hthis.mono h₃) hvalues)
    · refine .bind (.operand h f) fun b₁ f h₁ hf => ?_
      refine .bind (.operand (h.mono h₁) receiver) fun b₂ this h₂ hthis => ?_
      refine .bind (.evaluateAll ((h.mono h₁).mono h₂) arguments) fun b₃ values h₃ hvalues => ?_
      exact .valueResult (.call ((hf.mono h₂).mono h₃) (hthis.mono h₃) hvalues)
  | construct f arguments newTarget raw =>
    refine .bind (.objectOperand h "f" f) fun b₁ f h₁ hf => ?_
    refine .bind (.evaluateAll (h.mono h₁) arguments) fun b₂ values h₂ hvalues => ?_
    refine .bind (.object? ((h.mono h₁).mono h₂) newTarget) fun b₃ target h₃ htarget => ?_
    have hf₃ := (hf.mono h₂).mono h₃
    refine .ite (fun _ => ?_) fun _ => ?_
    · exact .objectResult (.constructRaw (hvalues.mono h₃) (htarget.getD' hf₃))
    · exact .objectResult (.construct hf₃ (hvalues.mono h₃) htarget)
  | invoke receiver key arguments =>
    refine .bind (.operand h receiver) fun b₁ this h₁ hthis => ?_
    refine .bind (.keyOperand (h.mono h₁) key) fun b₂ k h₂ _ => ?_
    refine .bind (.evaluateAll ((h.mono h₁).mono h₂) arguments) fun b₃ values h₃ hvalues => ?_
    exact .valueResult (.invoke ((hthis.mono h₂).mono h₃) hvalues)
  | length o =>
    exact .bind (.objectOperand h "o" o) fun _ _ _ ho =>
      .map (.lengthOfArrayLike ho) fun _ _ _ _ _ _ => seen_result.2 seen_ofNat
  | listFromArrayLike value =>
    exact .bind (.operand h value) fun _ _ _ hv => .bind (.listFromArrayLike hv) fun _ _ _ _ =>
      .plainResult (.showValues _) _

/-! ## Collections and iteration -/

theorem addEntries (map : Value) (entries : List (ε × ε)) :
    Routine D b Any fun eng => Engine.addEntries (ops eng) map entries := by
  induction entries generalizing b with
  | nil => exact .done _
  | cons entry rest ih =>
    simp only [Engine.addEntries]
    refine .bind (.operand h entry.1) fun b₁ k h₁ hk => ?_
    refine .bind (.operand (h.mono h₁) entry.2) fun b₂ v h₂ hv => ?_
    exact .bind (.mapSet (hk.mono h₂) hv) fun _ _ h₃ _ => ih (((h.mono h₁).mono h₂).mono h₃)

theorem addItems (set : Value) (items : List ε) :
    Routine D b Any fun eng => Engine.addItems (ops eng) set items := by
  induction items generalizing b with
  | nil => exact .done _
  | cons e rest ih =>
    simp only [Engine.addItems]
    exact .bind (.operand h e) fun _ _ h₁ hv => .bind (.setAdd hv) fun _ _ h₂ _ =>
      ih ((h.mono h₁).mono h₂)

theorem collection (o : ε) : Routine D b Any fun eng => Engine.collection (ops eng) o :=
  .mapAny (.objectOperand h "o" o) _

theorem collect (action : Collecting ε) :
    Routine D b D.Seen fun eng => Engine.collect (ops eng) action := by
  cases action with
  | map entries =>
    refine .bind (.newOfClass _ seen_empty trivial nofun) fun b₁ map h₁ hmap => ?_
    refine .bind (.addEntries (h.mono h₁) _ entries) fun _ _ h₂ _ => ?_
    exact .give (seen_object.2 (seen_ref.1 (hmap.mono h₂)))
  | mapSet o key value =>
    refine .bind (.collection h o) fun b₁ map h₁ _ => ?_
    refine .bind (.operand (h.mono h₁) key) fun b₂ k h₂ hk => ?_
    refine .bind (.operand ((h.mono h₁).mono h₂) value) fun b₃ v h₃ hv => ?_
    exact .bind (.mapSet (hk.mono h₃) hv) fun _ _ _ _ => .give seen_undefined
  | mapGet o key =>
    exact .bind (.collection h o) fun _ _ h₁ _ => .bind (.operand (h.mono h₁) key)
      fun _ _ _ _ => .mapGet _
  | mapHas o key =>
    exact .bind (.collection h o) fun _ _ h₁ _ => .bind (.operand (h.mono h₁) key)
      fun _ _ _ _ => .boolValue (.mapHas _)
  | mapDelete o key =>
    exact .bind (.collection h o) fun _ _ h₁ _ => .bind (.operand (h.mono h₁) key)
      fun _ _ _ _ => .boolValue (.mapDelete _)
  | set items =>
    refine .bind (.newOfClass _ seen_empty trivial nofun) fun b₁ set h₁ hset => ?_
    refine .bind (.addItems (h.mono h₁) _ items) fun _ _ h₂ _ => ?_
    exact .give (seen_object.2 (seen_ref.1 (hset.mono h₂)))
  | setAdd o value =>
    exact .bind (.collection h o) fun _ _ h₁ _ => .bind (.operand (h.mono h₁) value)
      fun _ _ _ hv => .bind (.setAdd hv) fun _ _ _ _ => .give seen_undefined
  | setHas o value =>
    exact .bind (.collection h o) fun _ _ h₁ _ => .bind (.operand (h.mono h₁) value)
      fun _ _ _ _ => .boolValue (.setHas _)
  | setDelete o value =>
    exact .bind (.collection h o) fun _ _ h₁ _ => .bind (.operand (h.mono h₁) value)
      fun _ _ _ _ => .boolValue (.setDelete _)

theorem iterationForm (form : SourceForm ε) :
    Routine D b D.Seen fun eng => eng.iterationForm (ops eng) form := by
  -- the sources that walk over one object refer to that object only
  have hobject (o : ε) {f : Ref → IterationSource}
      (hf : ∀ b' r, D.Seen b' r → D.Seen b' (f r)) :
      Routine D b D.Seen fun eng => (ops eng).object "o" o >>= fun r => pure (f r) :=
    .map (.objectOperand h "o" o) fun _ _ _ hr _ h₂ => hf _ _ (hr.mono h₂)
  have hkeys (o : ε) (keys : List ε) {f : Ref → List Key → IterationSource}
      (hf : ∀ b' r ks, D.Seen b' r → D.Seen b' (f r ks)) :
      Routine D b D.Seen fun eng => (do
        let o ← (ops eng).object "o" o
        let keys ← (ops eng).evaluateAll keys
        return f o (← eng.toPropertyKeys keys)) := by
    refine .bind (.objectOperand h "o" o) fun _ _ h₁ hr => ?_
    refine .bind (.evaluateAll (h.mono h₁) keys) fun _ _ h₂ hvs => ?_
    exact .map (.toPropertyKeys hvs) fun _ _ h₃ _ _ h₄ => hf _ _ _ (((hr.mono h₂).mono h₃).mono h₄)
  cases form with
  | list items => exact .map (.evaluateAll h items) fun _ _ _ hvs _ h₂ => hvs.mono h₂
  | arrayValues o => exact hobject o fun _ _ hr => hr
  | arrayKeys length => exact .map (.wordOperand h length) fun _ _ _ _ _ _ => nofun
  | arrayEntries o length =>
    exact .bind (.objectOperand h "o" o) fun _ _ h₁ hr => .map (.wordOperand (h.mono h₁) length)
      fun _ _ h₂ _ _ h₃ => (hr.mono h₂).mono h₃
  | codeUnits value => exact .map (.textOperand h value) fun _ _ _ _ _ _ => nofun
  | objectKeys o keys => exact hkeys o keys fun _ _ _ hr => hr
  | objectEntries o keys => exact hkeys o keys fun _ _ _ hr => hr
  | mapEntries o => exact hobject o fun _ _ hr => hr
  | setValues o => exact hobject o fun _ _ hr => hr

omit h in
theorem seen_orDone {v : Option Value} (hv : D.Seen b v) : D.Seen b (Engine.orDone v) := by
  cases v with
  | none => exact seen_plain
  | some v => exact seen_result.2 (seen_some.1 hv)

theorem iterate (action : Iterating ε) :
    Routine D b D.Seen fun eng => eng.iterate (ops eng) action := by
  cases action with
  | getIterator value =>
    exact .bind (.operand h value) fun _ _ _ hv => .objectResult (.getIterator hv)
  | next o => exact .bind (.objectOperand h "o" o) fun _ _ _ ho => .objectResult (.iteratorNext ho)
  | complete o =>
    exact .bind (.objectOperand h "o" o) fun _ _ _ ho => .boolResult (.iteratorComplete ho)
  | value o => exact .bind (.objectOperand h "o" o) fun _ _ _ ho => .valueResult (.iteratorValue ho)
  | step o =>
    refine .bind (.objectOperand h "o" o) fun _ _ _ ho => ?_
    exact .map (.iteratorStep ho) fun _ _ _ hr _ h₃ =>
      seen_orDone ((hr.mono h₃).map fun _ hr => seen_object.2 (seen_ref.1 hr))
  | stepValue o =>
    exact .bind (.objectOperand h "o" o) fun _ _ _ ho =>
      .map (.iteratorStepValue ho) fun _ _ _ hv _ h₃ => seen_orDone (hv.mono h₃)
  | drain o =>
    exact .bind (.objectOperand h "o" o) fun _ _ _ ho => .bind (.iteratorToList ho)
      fun _ _ _ hvs => .objectResult (.newArray hvs)
  | drainList o =>
    exact .bind (.objectOperand h "o" o) fun _ _ _ ho => .bind (.iteratorToList ho)
      fun _ _ _ _ => .plainResult (.showValues _) _
  | result value finished =>
    exact .bind (.operand h value) fun _ _ _ hv => .objectResult (.newResult hv finished)
  | advance o => exact .bind (.objectOperand h "o" o) fun _ r _ _ => .objectResult (.advance r)
  | iterator source =>
    exact .bind (.iterationForm h source) fun _ _ _ hs => .objectResult (.newIterator hs)

/-! ## The extensions -/

theorem evaluateTraps (traps : List (String × ε)) :
    Routine D b D.Seen fun eng => Engine.evaluateTraps (ops eng) traps := by
  induction traps generalizing b with
  | nil => exact .give seen_nil
  | cons trap rest ih =>
    simp only [Engine.evaluateTraps]
    refine .bind (.operand h trap.2) fun b₁ f h₁ hf => ?_
    refine .bind (ih (h.mono h₁)) fun b₂ table h₂ htable => ?_
    cases Trap.ofName? trap.1 with
    | none => exact .give htable
    | some t => exact .give (seen_cons.2 ⟨seen_pair.2 ⟨seen_trap, hf.mono h₂⟩, htable⟩)

theorem extend (action : Extension ε) :
    Routine D b D.Seen fun eng => eng.extend (ops eng) action := by
  cases action with
  | uneval value =>
    exact .bind (.operand h value) fun _ _ _ hv =>
      .map (.uneval hv) fun _ _ _ _ _ _ => seen_result.2 seen_text
  | sourceContext => exact .plainResult .machine _
  | proxyCreate handler proto =>
    exact .bind (.operand h handler) fun _ _ h₁ hh => .bind (.operand (h.mono h₁) proto)
      fun _ _ h₂ hp => .objectResult (.proxyCreate (hh.mono h₂) hp)
  | proxyCreateFunction handler call construct =>
    refine .bind (.operand h handler) fun b₁ handler h₁ hh => ?_
    refine .bind (.operand (h.mono h₁) call) fun b₂ f h₂ hf => ?_
    refine .bind (.evaluate? ((h.mono h₁).mono h₂) construct) fun b₃ g h₃ hg => ?_
    exact .objectResult (.proxyCreateFunction ((hh.mono h₂).mono h₃) (hf.mono h₃) hg)
  | adapt handler =>
    exact .bind (.objectOperand h "handler" handler) fun _ _ _ hh =>
      .plainResult (.adapt hh seen_none) _
  | handlerOperations handler =>
    exact .bind (.objectOperand h "handler" handler) fun _ _ _ hh =>
      .plainResult (.readHandler hh) _
  | proxy target traps =>
    exact .bind (.objectOperand h "target" target) fun _ _ h₁ ht =>
      .bind (.evaluateTraps (h.mono h₁) traps) fun _ _ h₂ htable =>
        .objectResult (.newProxy (fun _ => ht.mono h₂) htable nofun)
  | trapTable traps => exact .plainResult (.evaluateTraps h traps) _
  | iterationObject value keysOnly =>
    exact .bind (.operand h value) fun _ _ _ hv => .objectResult (.newIteration hv keysOnly)
  | isIterationObject value =>
    exact .bind (.operand h value) fun _ _ _ hv => .boolResult (.isIterationObject hv)
  | install => exact .bind .install fun _ _ _ _ => .plainResult (.showValues _) _
  | realm => exact .bind .machine fun _ _ _ _ => .plainResult (.showObject _) _

theorem operate (hD : D.scripted) (op : Operation ε) :
    Routine D b D.Seen fun eng => eng.operate (ops eng) op := by
  cases op with
  | control action => exact .valueResult (.control h hD action)
  | pairing action x y => exact .valueResult (.pair h action x y)
  | create action => exact .valueResult (.create h action)
  | convert action value => exact .convert h action value
  | text action => exact .textAction h action
  | access action => exact .access h action
  | describe action => exact .describe h action
  | collect action => exact .valueResult (.collect h action)
  | iterate action => exact .iterate h action
  | extend action => exact .extend h action

end Operands

/-! ## Evaluation -/

theorem lookupFrame {frame : Frame} (hf : D.Seen b frame) (name : String) :
    Routine D b D.Seen fun _ => frame.lookup name := by
  obtain ⟨hreceiver, harguments, htarget⟩ := seen_frame.1 hf
  unfold Frame.lookup
  split
  · exact .give (seen_some.2 hreceiver)
  · exact .give (seen_some.2 htarget.elim)
  · exact .map (.newArray harguments) fun _ _ _ ho _ h₁ =>
      seen_some.2 (seen_object.2 (seen_ref.1 (ho.mono h₁)))
  · refine .give ?_
    cases Frame.argumentIndex? name with
    | none => exact seen_none
    | some i => exact seen_some.2 (harguments.getD seen_undefined i)

theorem seen_lookup {m : Machine} (hm : D.Seen b m) (name : String) :
    D.Seen b (m.lookup name) := by
  have hextensions : D.Seen b m.extensions := fun r hr => hm r (Or.inr (Or.inl hr))
  have hbindings : D.Seen b m.bindings := fun r hr => hm r (Or.inr (Or.inr (Or.inl hr)))
  have hvalue : D.Seen b (m.extensionValue? name) := by
    unfold Machine.extensionValue?
    split
    · exact hextensions.map fun x hx => seen_object.2 (hx _ (Or.inl rfl))
    · exact hextensions.map fun x hx => seen_object.2 (hx _ (Or.inr rfl))
    · exact seen_none
  unfold Machine.lookup
  split
  · exact seen_symbol
  · cases m.extensions with
    | none => exact seen_undefined
    | some x => exact seen_symbol
  · split
    · exact seen_object.2 (D.knows_intrinsic _ _)
    · split
      · next v heq =>
        rw [heq] at hvalue
        exact seen_some.1 hvalue
      · exact (hbindings.lookup name).getD' seen_undefined

theorem lookup {frame : Option Frame} (hf : D.Seen b frame) (name : String) :
    Routine D b D.Seen fun _ => Engine.lookup frame name := by
  cases frame
  case' none => refine .bind (.give seen_none) fun _ found _ hfound => ?_
  case' some frame =>
    refine .bind (.lookupFrame (seen_some.1 hf) name) fun _ found _ hfound => ?_
  all_goals
    cases found with
    | some v => exact .give (seen_some.1 hfound)
    | none => exact .map .machine fun _ _ _ hm _ h₂ => (seen_lookup hm name).mono h₂

theorem evaluateValue {frame : Option Frame} {e : Expr} (hf : D.Seen b frame) (he : D.Seen b e) :
    Routine D b D.Seen fun eng => eng.evaluateValue frame e :=
  .map (.answer (.evaluate frame e) fun r hr => hr.elim (hf r) (he r))
    fun _ _ _ hx _ h₂ => (hx.mono h₂).toValue

theorem reads_expressions {frame : Option Frame} {es : List Expr} (hf : D.Seen b frame)
    (hes : D.Seen b es) :
    Routine D b D.Seen fun eng => (eng.expressions frame).evaluateAll es := by
  induction es generalizing b with
  | nil => exact .give seen_nil
  | cons e rest ih =>
    obtain ⟨he, hrest⟩ := seen_cons.1 hes
    exact .bind (.evaluateValue hf he) fun _ _ h₁ hv =>
      .consSeen hv (ih (hf.mono h₁) (hrest.mono h₁))

theorem reads_operandsOf {frame : Option Frame} {op : Operation Nat} {es : List Expr}
    {storeAs : Option String} (hf : D.Seen b frame)
    (he : D.Seen b (Expr.operation op es storeAs)) :
    Reads D b (fun eng => eng.operandsOf frame es) (Expr.operand es) where
  evaluate _ i hb := .evaluateValue (hf.mono hb) ((he.operand i).mono hb)
  expression_eq _ := rfl
  seen := he.operand

theorem store {result : Result} (hr : D.Seen b result) (name : Option String) :
    Routine D b Any fun _ => Engine.store name result := by
  cases name with
  | none => exact .done _
  | some name =>
    cases result with
    | value v => exact .setVariable hr name
    | plain p => exact .done _

theorem evaluate {frame : Option Frame} {e : Expr} (hD : D.scripted) (hf : D.Seen b frame)
    (he : D.Seen b e) : Routine D b D.Seen fun eng => eng.evaluate frame e := by
  cases e with
  | value v => exact .give (seen_result.2 fun r hr => he r (.value hr))
  | array items =>
    have hitems : D.Seen b items := by
      rintro r ⟨e, hmem, hr⟩
      exact he r (.item hmem hr)
    exact .bind (.reads_expressions hf hitems) fun _ _ _ hvs => .objectResult (.newArray hvs)
  | name n => exact .valueResult (.lookup hf n)
  | operation op operands storeAs =>
    refine .bind (.operate (reads_operandsOf hf he) hD op) fun b₁ result h₁ hresult => ?_
    exact .bind (.store hresult storeAs) fun _ _ h₂ _ => .give (hresult.mono h₂)

theorem runScript {f : ScriptFunction} {frame : Frame} (hb : D.Seen b f.body)
    (hf : D.Seen b frame) : Routine D b D.Seen fun eng => eng.runScript f frame := by
  have hbody {b' : Nat} {es : List Expr} (hes : D.Seen b' es) (hf : D.Seen b' frame) :
      Routine D b' D.Seen fun eng =>
        Engine.evaluateSequence (eng.expressions (some frame)) es := by
    induction es generalizing b' with
    | nil => exact .give seen_undefined
    | cons e rest ih =>
      obtain ⟨he, hrest⟩ := seen_cons.1 hes
      cases rest with
      | nil => exact .evaluateValue (seen_some.2 hf) he
      | cons e' rest =>
        simp only [Engine.evaluateSequence]
        exact .bind (.evaluateValue (seen_some.2 hf) he) fun _ _ h₁ _ =>
          ih (hrest.mono h₁) (hf.mono h₁)
  unfold Engine.runScript
  refine .ite (fun _ => ?_) fun _ => ?_
  · exact .bind (.logCall _ _ _ _) fun _ _ h₁ _ => hbody (hb.mono h₁) (hf.mono h₁)
  · exact hbody hb hf

end Routine

end ObjectModel
