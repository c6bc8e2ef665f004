import ObjectModel.Engine.Native
import ObjectModel.Proofs.Routine.Realm
import ObjectModel.Proofs.Taking

/-!
# Routines of the builtins

Maps and sets, iterators, source text and the builtin functions as routines of every discipline.
-/

namespace ObjectModel

namespace Engine

/-- A collection is required in vain, or is there with its slots. -/
def RequiresAs {δ : Type} (wrap : δ → Kind) (require : Value → Run (Ref × δ)) : Prop :=
  ∀ v m, (∃ fault, require v m = Run.fail fault m) ∨
    ∃ r data, v = .object r ∧ m.heap.kind r = wrap data ∧ require v m = .ok (r, data) m

theorem requireMap_as : RequiresAs Kind.map requireMap := by
  intro v m
  cases v with
  | object r =>
    cases hk : m.heap.kind r with
    | map data =>
      refine .inr ⟨r, data, rfl, hk, ?_⟩
      simp only [requireMap, Run.bind_apply, Run.kind, hk]
      rfl
    | _ =>
      refine .inl ⟨.expected .map, ?_⟩
      simp only [requireMap, Run.bind_apply, Run.kind, hk]
  | _ => exact .inl ⟨.expected .map, rfl⟩

theorem requireSet_as : RequiresAs Kind.set requireSet := by
  intro v m
  cases v with
  | object r =>
    cases hk : m.heap.kind r with
    | set data =>
      refine .inr ⟨r, data, rfl, hk, ?_⟩
      simp only [requireSet, Run.bind_apply, Run.kind, hk]
      rfl
    | _ =>
      refine .inl ⟨.expected .set, ?_⟩
      simp only [requireSet, Run.bind_apply, Run.kind, hk]
  | _ => exact .inl ⟨.expected .set, rfl⟩

end Engine

namespace Discipline

variable {D : Discipline} {m : Machine} {iterator : Ref}

theorem Sound.moveCursor (hm : D.Sound m) (iterator : Ref) (cursor : Cursor) :
    D.Sound (Run.final (Engine.moveCursor iterator cursor m)) := by
  have hobject := hm.object iterator
  refine hm.modify ?_
  split
  · next source c hkind =>
    have hsource : D.Seen m.size (Kind.iterator source c) := hkind ▸ (seen_whole.1 hobject).2.2
    exact hobject.withKind hsource
  · exact hobject

/-- A cursor moves on by a single change. -/
theorem keeps_moveCursor {source : IterationSource} {c c' : Cursor}
    (hkind : m.heap.kind iterator = .iterator source c) (h : c ≤ c') :
    D.keeps m (Run.final (Engine.moveCursor iterator c' m)) := by
  rw [Engine.moveCursor_apply, hkind]
  have heq : m.heap.modify iterator (fun o => { o with kind := .iterator source c' }) =
      m.heap.modify iterator fun _ =>
        { m.heap.object iterator with kind := .iterator source c' } := Heap.modify_congr rfl
  show D.keeps m (m.withHeap _)
  rw [heq]
  have hturn : Kind.Turn (m.heap.object iterator).kind (.iterator source c') := by
    rw [show (m.heap.object iterator).kind = _ from hkind]
    exact .cursor source h
  exact D.keeps_change (.revise iterator (.turn hturn) (.inr rfl))

end Discipline

namespace Routine

open Discipline

variable {D : Discipline} {b : Nat} {v : Value}

/-! ## Maps and sets -/

/-- Changes the slots of a collection. -/
theorem turnCollection {α δ : Type} {wrap : δ → Kind} {require : Value → Run (Ref × δ)}
    (hreq : Engine.RequiresAs wrap require) {f : δ → δ} (answer : δ → α)
    (hturn : ∀ data, Kind.Turn (wrap data) (wrap (f data)))
    (hs : ∀ b' data, b ≤ b' → D.Seen b' (wrap data) → D.Seen b' (wrap (f data))) :
    Routine D b Any fun _ => (do
      let (r, data) ← require v
      Run.update r fun o => { o with kind := wrap (f data) }
      pure (answer data)) := by
  refine .act _ fun m hb hm => ?_
  rw [Run.bind_apply]
  rcases hreq v m with ⟨fault, hfail⟩ | ⟨r, data, -, hkind, hok⟩
  · have hmeets := (fail (D := D) (b := m.size) (Q := Any (α := Ref × δ)) fault).runs
      (Nat.le_refl _) hm
    rw [hfail]
    cases hres : Run.fail (α := Ref × δ) fault m with
    | ok a m' => cases hres
    | error e m' =>
      rw [hres] at hmeets
      cases e <;> exact hmeets
  · rw [hok]
    have hseen : D.Seen m.size (wrap data) := hkind ▸ hm.heap.kindAt r
    exact ⟨.turn hm (hkind ▸ hturn data) (hs _ data hb hseen), trivial⟩

theorem requireMap (v : Value) :
    Routine D b (fun b' found => D.Seen b' found.2) fun _ => Engine.requireMap v := by
  cases v with
  | object r =>
    refine .bind (.kind r) fun b₁ kind _ hkind => ?_
    cases kind with
    | map data => exact .pure fun _ h₂ => hkind.mono h₂
    | _ => exact .fail _
  | _ => exact .fail _

theorem mapSet {k x : Value} (hk : D.Seen b k) (hx : D.Seen b x) :
    Routine D b Any fun _ => Engine.mapSet v k x :=
  .turnCollection Engine.requireMap_as (fun _ => ()) (fun data => .mapSet data k x)
    fun _ _ hb hdata => Seen.insert hdata (hk.mono hb).canonicalKey (hx.mono hb)

theorem mapGet (k : Value) : Routine D b D.Seen fun _ => Engine.mapGet v k := by
  refine .map (.requireMap v) fun b₁ found _ hdata b₂ h₂ => ?_
  have hfound : D.Seen b₁ (found.2.find? k.canonicalKey) := by
    cases hk : found.2.find? k.canonicalKey with
    | none => exact seen_none
    | some x => exact seen_some.2 (seen_slots.1 hdata _ x hk).2
  exact (hfound.mono h₂).getD' seen_undefined

theorem mapHas (k : Value) : Routine D b Any fun _ => Engine.mapHas v k :=
  .mapAny (.requireMap v) _

theorem mapDelete (k : Value) : Routine D b Any fun _ => Engine.mapDelete v k :=
  .turnCollection Engine.requireMap_as (fun data => data.has k) (fun data => .mapDelete data k)
    fun _ _ _ hdata => Seen.erase hdata

theorem requireSet (v : Value) : Routine D b Any fun _ => Engine.requireSet v := by
  cases v with
  | object r =>
    refine .bind (.kind r) fun b₁ kind _ _ => ?_
    cases kind with
    | set data => exact .done _
    | _ => exact .fail _
  | _ => exact .fail _

theorem setAdd {x : Value} (hx : D.Seen b x) : Routine D b Any fun _ => Engine.setAdd v x :=
  .turnCollection Engine.requireSet_as (fun _ => ()) (fun data => .setAdd data x)
    fun _ _ hb hdata => Seen.insert hdata (hx.mono hb).canonicalKey seen_unit

theorem setHas (x : Value) : Routine D b Any fun _ => Engine.setHas v x :=
  .mapAny (.requireSet v) _

theorem setDelete (x : Value) : Routine D b Any fun _ => Engine.setDelete v x :=
  .turnCollection Engine.requireSet_as (fun data => data.has x) (fun data => .setDelete data x)
    fun _ _ _ hdata => Seen.erase hdata

/-! ## Iterators -/

theorem iteratorObject (hv : D.Seen b v) : Routine D b D.Seen fun _ => Engine.iteratorObject v := by
  cases v with
  | object r => exact .give (seen_ref.2 (seen_object.1 hv))
  | _ => exact .fail _

theorem getIterator (hv : D.Seen b v) : Routine D b D.Seen fun eng => eng.getIterator v := by
  refine .bind (.getMethod hv) fun b₁ f h₁ hf => ?_
  cases f with
  | none => exact .fail _
  | some f =>
    exact .bind (.call (seen_object.2 (seen_ref.1 (seen_some.1 hf))) (hv.mono h₁) seen_nil)
      fun _ _ _ hr => .iteratorObject hr

section Protocol

variable {iterator : Ref}

theorem iteratorNext (hi : D.Seen b iterator) :
    Routine D b D.Seen fun eng => eng.iteratorNext iterator :=
  .bind (.invoke (seen_object.2 (seen_ref.1 hi)) seen_nil) fun _ _ _ hr => .iteratorObject hr

theorem iteratorComplete (hi : D.Seen b iterator) :
    Routine D b Any fun eng => eng.iteratorComplete iterator :=
  .mapAny (.get hi) _

theorem iteratorValue (hi : D.Seen b iterator) :
    Routine D b D.Seen fun eng => eng.iteratorValue iterator := .get hi

theorem iteratorStep (hi : D.Seen b iterator) :
    Routine D b D.Seen fun eng => eng.iteratorStep iterator := by
  refine .bind (.iteratorNext hi) fun b₁ result h₁ hresult => ?_
  refine .bind (.iteratorComplete hresult) fun b₂ finished h₂ _ => ?_
  exact .ite (fun _ => .give seen_none) fun _ => .give (seen_some.2 (hresult.mono h₂))

theorem iteratorStepValue (hi : D.Seen b iterator) :
    Routine D b D.Seen fun eng => eng.iteratorStepValue iterator := by
  refine .bind (.iteratorStep hi) fun b₁ result h₁ hresult => ?_
  cases result with
  | none => exact .give seen_none
  | some result => exact .mapSome (.iteratorValue (seen_some.1 hresult))

theorem iteratorValues (hi : D.Seen b iterator) (fuel : Nat) :
    Routine D b D.Seen fun eng => eng.iteratorValues iterator fuel := by
  induction fuel generalizing b with
  | zero => exact .outOfFuel
  | succ fuel ih =>
    simp only [Engine.iteratorValues]
    refine .bind (.iteratorStepValue hi) fun b₁ v h₁ hv => ?_
    cases v with
    | none => exact .give seen_nil
    | some v => exact .consSeen (seen_some.1 hv) (ih (hi.mono h₁))

/-- More steps give what steps up to the end give. -/
theorem lags_iteratorValues (eng : Engine) (iterator : Ref) {n n' : Nat} (hn : n ≤ n')
    (m : Machine) :
    Run.Lags (eng.iteratorValues iterator n m) (eng.iteratorValues iterator n' m) := by
  induction n generalizing n' m with
  | zero => exact .outOfFuel m _
  | succ n ih =>
    obtain ⟨n', rfl⟩ : ∃ k, n' = k + 1 := ⟨n' - 1, by omega⟩
    rw [Engine.iteratorValues, Engine.iteratorValues]
    refine .bind .refl fun v m₁ _ => ?_
    cases v with
    | none => exact .refl
    | some v => exact .bind (ih (Nat.le_of_succ_le_succ hn) m₁) fun _ _ _ => .refl

theorem iteratorToList (hi : D.Seen b iterator) :
    Routine D b D.Seen fun eng => eng.iteratorToList iterator :=
  .limit (f := fun limit eng => eng.iteratorValues iterator limit) (fun n => .iteratorValues hi n)
    fun _ _ eng m hn => lags_iteratorValues eng iterator hn m

theorem newResult (hv : D.Seen b v) (finished : Bool) :
    Routine D b D.Seen fun _ => Engine.newResult v finished :=
  .newPlainObject (by simp [hv])

theorem newPair {x y : Value} (hx : D.Seen b x) (hy : D.Seen b y) :
    Routine D b D.Seen fun _ => Engine.newPair x y :=
  .objectValue (.newArray (by simp [hx, hy]))

theorem seen_elementAt {h : Heap} (hh : D.Seen b h) {source : IterationSource}
    (hs : D.Seen b source) (position : Nat) : D.Seen b (h.elementAt source position) := by
  unfold Heap.elementAt
  cases source with
  | list values =>
    have hs : D.Seen b values.toList := hs
    simp only
    cases hv : values[position]? with
    | none => exact nofun
    | some v => exact seen_list.1 hs v (by simpa using Array.mem_of_getElem? hv)
  | arrayValues array => exact hs
  | arrayKeys length =>
    simp only
    split
    · exact seen_ofNat
    · exact nofun
  | arrayEntries array length =>
    simp only
    split
    · exact hs
    · exact nofun
  | codeUnits units =>
    simp only
    cases units[position]? with
    | none => exact nofun
    | some u => exact seen_text
  | objectKeys object keys =>
    simp only
    cases keys[position]? with
    | none => exact nofun
    | some k => exact hs
  | objectEntries object keys =>
    simp only
    cases keys[position]? with
    | none => exact nofun
    | some k => exact hs
  | mapEntries map =>
    have hkind := hh.kindAt map
    simp only
    split
    · next data hdata =>
      rw [hdata] at hkind
      split
      · next k v hcell =>
        have hmem : data.find? k = some v := Slots.find?_eq_some_iff.2 ⟨position, hcell⟩
        obtain ⟨hk, hv⟩ := seen_slots.1 hkind k v hmem
        exact fun r hr => hr.elim (hk r) (hv r)
      · exact nofun
      · exact nofun
    · exact nofun
  | setValues set =>
    have hkind := hh.kindAt set
    simp only
    split
    · next data hdata =>
      rw [hdata] at hkind
      split
      · next v u hcell =>
        have hmem : data.find? v = some u := Slots.find?_eq_some_iff.2 ⟨position, hcell⟩
        exact (seen_slots.1 hkind v u hmem).1
      · exact nofun
      · exact nofun
    · exact nofun

theorem inspect {element : Element} (he : D.Seen b element) (position : Nat) :
    Routine D b D.Seen fun eng => eng.inspect position element := by
  cases element with
  | live array =>
    have harray : D.Seen b array := he
    refine .map (.lengthOfArrayLike harray) fun b₁ length h₁ _ b₂ h₂ => ?_
    split
    · exact nofun
    · exact (harray.mono h₁).mono h₂
  | _ => exact .give he

theorem look (iterator : Ref) : Routine D b D.Seen fun eng => eng.look iterator := by
  refine .bind .heap fun b₁ h h₁ hh => ?_
  have hkind := hh.kindAt iterator
  cases hk : h.kind iterator with
  | iterator source cursor =>
    rw [hk] at hkind
    dsimp only
    cases cursor.position? with
    | none => exact .give seen_none
    | some position =>
      exact .map (.inspect (seen_elementAt hh hkind position) position) fun _ _ _ he _ h₃ =>
        seen_some.2 (seen_pair.2 ⟨seen_nat, he.mono h₃⟩)
  | _ => exact .fail _

/-- Looking and moving on are known to the discipline together, since the length of a live array
is read in between. -/
theorem take (iterator : Ref) : Routine D b D.Seen fun eng => eng.take iterator := by
  refine .settle (.look iterator) fun eng eng' heng heng' m s hb hm hs hstop hlook => ?_
  rw [Run.bind_apply]
  cases hres : eng.look iterator m with
  | error e m' =>
    rw [hres] at hlook
    cases e <;> exact hlook
  | ok found m' =>
    rw [hres] at hlook
    obtain ⟨source, c, hkind, hposition, hsame⟩ := eng.look_cases hres
    obtain ⟨hfollows, hfound⟩ := hlook
    cases found with
    | none => exact ⟨hfollows, seen_none⟩
    | some found =>
      obtain ⟨position, element⟩ := found
      have hle := Engine.le_cursorPast hposition.symm element
      have hseen := (seen_pair.1 (seen_some.1 hfound)).2
      have hsource : D.Seen m.size (Kind.iterator source c) := hkind ▸ hm.heap.kindAt iterator
      dsimp only
      rw [Engine.pass_some]
      refine ⟨⟨?_, hfollows.sound.moveCursor iterator _, ?_⟩, ?_⟩
      · rcases hsame with rfl | ⟨array, length, rfl, hlength⟩
        · exact D.keeps_trans hfollows.keeps (D.keeps_moveCursor hkind hle)
        · refine D.keeps_settle hkind (seen_ref.1 hsource) hle (fun hprompt harray => ?_)
            (hstop.imp_right And.left) hs.keeps hfollows.keeps
          have hlast := (heng.lengths hprompt).lengthOfArrayLike harray
          have hlast' := (heng'.lengths hprompt).lengthOfArrayLike harray
          rw [hlength] at hlast
          refine ⟨?_, hlast⟩
          rcases hstop with hsame | ⟨-, hstop⟩
          · exact hsame
          · rw [eng'.look_live hkind hposition.symm] at hstop
            cases hread : eng'.lengthOfArrayLike array m with
            | ok length' m₁ =>
              rw [hread] at hstop
              cases hstop
            | error e m₁ =>
              rw [hread] at hstop hlast'
              cases hstop
              exact hlast'
      · exact Nat.le_trans hfollows.grows (Nat.le_of_eq (Engine.size_moveCursor ..).symm)
      · rw [Engine.size_moveCursor]
        cases element with
        | finished => exact seen_none
        | _ => exact seen_some.2 (seen_pair.2 ⟨seen_nat, hseen⟩)

theorem deliver {element : Element} (he : D.Seen b element) (position : Nat) :
    Routine D b D.Seen fun eng => eng.deliver position element := by
  cases element with
  | finished | hole => exact .give seen_none
  | value v => exact .give (seen_some.2 he)
  | live array => exact .mapSome (.get he)
  | arrayEntry array => exact .bind (.get he) fun _ _ _ hv => .mapSome (.newPair seen_ofNat hv)
  | ownKey object key entry =>
    have hobject : D.Seen b object := he
    refine .bind (.hasOwnProperty hobject) fun b₁ found h₁ _ => ?_
    refine .ite (fun _ => .give seen_none) fun _ => .ite (fun _ => ?_) fun _ => ?_
    · exact .bind (.get (hobject.mono h₁)) fun _ _ _ hv => .mapSome (.newPair seen_toValue hv)
    · exact .give (seen_some.2 seen_toValue)
  | pair k v =>
    exact .mapSome (.newPair (fun r hr => he r (Or.inl hr)) fun r hr => he r (Or.inr hr))

theorem handOutWithin (iterator : Ref) (fuel : Nat) :
    Routine D b D.Seen fun eng => eng.handOutWithin iterator fuel := by
  induction fuel generalizing b with
  | zero => exact .outOfFuel
  | succ fuel ih =>
    simp only [Engine.handOutWithin]
    refine .bind (.take iterator) fun b₁ found h₁ hfound => ?_
    cases found with
    | none => exact .give seen_none
    | some found =>
      obtain ⟨position, element⟩ := found
      have helement := (seen_pair.1 (seen_some.1 hfound)).2
      refine .bind (.deliver helement position) fun b₂ v h₂ hv => ?_
      cases v with
      | none => exact ih
      | some v => exact .give (seen_some.2 (seen_pair.2 ⟨seen_nat, seen_some.1 hv⟩))

theorem handOut (iterator : Ref) : Routine D b D.Seen fun eng => eng.handOut iterator := by
  refine .bind .heap fun b₁ h h₁ _ => ?_
  cases hk : h.kind iterator with
  | iterator source cursor => exact .handOutWithin iterator _
  | _ => exact .fail _

theorem resultFor {found : Option (Nat × Value)} (h : D.Seen b found) :
    Routine D b D.Seen fun _ => Engine.resultFor found := by
  cases found with
  | none => exact .newResult seen_undefined _
  | some found => exact .newResult (seen_pair.1 (seen_some.1 h)).2 _

theorem advance (iterator : Ref) : Routine D b D.Seen fun eng => eng.advance iterator := by
  simp only [Engine.advance_eq]
  exact .bind (.handOut iterator) fun _ _ _ hfound => .resultFor hfound

end Protocol

/-! ## Source text -/

section Source

variable {o : Ref}

theorem uneval (hv : D.Seen b v) : Routine D b Any fun eng => eng.uneval v := by
  cases v with
  | symbol _ | object _ =>
    refine .bind (.getV hv) fun b₁ method h₁ hmethod => ?_
    refine .bind (.callable? hmethod) fun b₂ f h₂ hf => ?_
    cases f with
    | none => exact .done _
    | some f =>
      refine .bind (.call (seen_object.2 (seen_ref.1 (seen_some.1 hf))) ((hv.mono h₁).mono h₂)
        seen_nil) fun b₃ result h₃ hresult => ?_
      exact .mapAny (.toText hresult) _
  | _ => exact .done _

theorem propertySource (ho : D.Seen b o) (k : Key) :
    Routine D b Any fun eng => eng.propertySource o k := by
  refine .bind (.getOwnProperty ho) fun b₁ found h₁ hfound => ?_
  cases found with
  | none => exact .done _
  | some d =>
    obtain ⟨hvalue, -, -⟩ := seen_descriptor.1 (seen_some.1 hfound)
    refine .ite (fun _ => .bind .heap fun b₂ heap _ _ => ?_) fun _ => ?_
    · dsimp only
      split <;> exact .done _
    · exact .mapAny (.uneval (hvalue.getD' seen_undefined)) _

theorem propertySources (ho : D.Seen b o) (ks : List Key) :
    Routine D b Any fun eng => eng.propertySources o ks := by
  induction ks generalizing b with
  | nil => exact .done _
  | cons k rest ih =>
    exact .bind (.propertySource ho k) fun _ _ h₁ _ => .mapAny (ih (ho.mono h₁)) _

theorem objectSource (ho : D.Seen b o) : Routine D b Any fun eng => eng.objectSource o := by
  refine .visit (Q := Any) o _ (.bind .machine fun b₁ m h₁ _ => ?_)
  refine .bind (.enumerableOwnKeys (ho.mono h₁)) fun b₂ keys h₂ _ => ?_
  exact .mapAny (.propertySources ((ho.mono h₁).mono h₂) keys) _

theorem elementSources (ho : D.Seen b o) (count start : Nat) :
    Routine D b Any fun eng => eng.elementSources o count start := by
  induction count generalizing b start with
  | zero => exact .done _
  | succ count ih =>
    simp only [Engine.elementSources]
    refine .bind (.hasOwnProperty ho) fun b₁ found h₁ _ => .ite (fun _ => ?_) fun _ => ?_
    · refine .bind (.get (ho.mono h₁)) fun b₂ v h₂ hv => ?_
      refine .bind (.uneval hv) fun b₃ t h₃ _ => ?_
      refine .bind (.done _) fun b₄ item h₄ _ => ?_
      exact .mapAny (ih ((((ho.mono h₁).mono h₂).mono h₃).mono h₄) _) _
    · exact .bind (.done _) fun _ _ h₂ _ => .mapAny (ih ((ho.mono h₁).mono h₂) _) _

theorem arraySource (ho : D.Seen b o) : Routine D b Any fun eng => eng.arraySource o := by
  refine .visit (Q := Any) o _ (.bind (.lengthOfArrayLike ho) fun b₁ length h₁ _ => ?_)
  exact .mapAny (.elementSources (ho.mono h₁) length 0) _

theorem errorSource (ho : D.Seen b o) : Routine D b Any fun eng => eng.errorSource o := by
  refine .visit (Q := Any) o _ (.bind (.get ho) fun b₁ v h₁ hv => ?_)
  refine .bind (.toText hv) fun b₂ name h₂ _ => ?_
  refine .bind (.get ((ho.mono h₁).mono h₂)) fun b₃ w h₃ hw => ?_
  exact .mapAny (.uneval hw) _

theorem functionSource (hv : D.Seen b v) : Routine D b Any fun eng => eng.functionSource v := by
  refine .bind .heap fun b₁ h h₁ _ => ?_
  cases h.functionSource? v with
  | none => exact .fail _
  | some source =>
    exact .bind (.getV (hv.mono h₁)) fun _ _ _ hname => .mapAny (.toText hname) _

end Source

/-! ## Builtin functions -/

theorem wrapped? (v : Value) : Routine D b Any fun _ => Engine.wrapped? v := by
  cases v with
  | object r =>
    refine .bind (.kind r) fun b₁ kind _ _ => ?_
    cases kind <;> exact .done _
  | _ => exact .done _

theorem thisBool (v : Value) : Routine D b Any fun _ => Engine.thisBool v := by
  refine .bind (.wrapped? v) fun b₁ found _ _ => ?_
  rcases found with _ | _ | _ | _ | _ <;> first | exact .done _ | exact .fail _

theorem thisNumber (v : Value) : Routine D b Any fun _ => Engine.thisNumber v := by
  refine .bind (.wrapped? v) fun b₁ found _ _ => ?_
  rcases found with _ | _ | _ | _ | _ <;> first | exact .done _ | exact .fail _

theorem thisText (v : Value) : Routine D b Any fun _ => Engine.thisText v := by
  refine .bind (.wrapped? v) fun b₁ found _ _ => ?_
  rcases found with _ | _ | _ | _ | _ <;> first | exact .done _ | exact .fail _

theorem thisSymbol (v : Value) : Routine D b Any fun _ => Engine.thisSymbol v := by
  refine .bind (.wrapped? v) fun b₁ found _ _ => ?_
  rcases found with _ | _ | _ | _ | _ <;> first | exact .done _ | exact .fail _

theorem thisTime (v : Value) : Routine D b Any fun _ => Engine.thisTime v := by
  cases v with
  | object r =>
    refine .bind (.kind r) fun b₁ kind _ _ => ?_
    cases kind with
    | date t => exact .done _
    | _ => exact .fail _
  | _ => exact .fail _

theorem thisObject (method : Receiver) (hv : D.Seen b v) :
    Routine D b D.Seen fun _ => Engine.thisObject method v := by
  cases v with
  | object r => exact .give (seen_ref.2 (seen_object.1 hv))
  | _ => exact .fail _

theorem objectText (hv : D.Seen b v) : Routine D b Any fun _ => Engine.objectText v := by
  cases v with
  | undefined => exact .bind (.done _) fun _ _ _ _ => .done _
  | null => exact .bind (.done _) fun _ _ _ _ => .done _
  | _ =>
    exact .bind (.toObject hv) fun _ _ _ _ => .bind .heap fun _ _ _ _ =>
      .bind (.done _) fun _ _ _ _ => .done _

section Texts

variable {o : Ref}

theorem textProperty (ho : D.Seen b o) (k : Key) (default : Text) :
    Routine D b Any fun eng => eng.textProperty o k default :=
  .bind (.get ho) fun _ _ _ hv => .ite (fun _ => .done _) fun _ => .toText hv

theorem errorText (ho : D.Seen b o) : Routine D b Any fun eng => eng.errorText o :=
  .bind (.textProperty ho _ _) fun _ _ h₁ _ => .mapAny (.textProperty (ho.mono h₁) _ _) _

theorem regexp? (v : Value) : Routine D b Any fun _ => Engine.regexp? v := by
  cases v with
  | object r =>
    refine .bind (.kind r) fun b₁ kind _ _ => ?_
    cases kind <;> exact .done _
  | _ => exact .done _

theorem regexpSource (v : Value) : Routine D b Any fun _ => Engine.regexpSource v := by
  refine .bind (.regexp? v) fun b₁ found _ _ => ?_
  cases found with
  | some found => exact .done _
  | none => exact .ite (fun _ => .done _) fun _ => .fail _

theorem regexpFlags (hv : D.Seen b v) : Routine D b Any fun _ => Engine.regexpFlags v :=
  .bind (.thisObject _ hv) fun _ _ _ _ => .mapAny (.regexp? v) _

theorem regexpText (ho : D.Seen b o) : Routine D b Any fun eng => eng.regexpText o := by
  refine .bind (.get ho) fun b₁ v h₁ hv => .bind (.toText hv) fun b₂ source h₂ _ => ?_
  exact .bind (.get ((ho.mono h₁).mono h₂)) fun _ _ _ hw => .mapAny (.toText hw) _

theorem newRegexp (source flags : Text) :
    Routine D b D.Seen fun _ => Engine.newRegexp source flags :=
  .ite (fun _ => .newOfClass _ nofun trivial nofun) fun _ => .fail _

end Texts

/-- A text that a routine gives, as a value. -/
theorem textValue {α : Type} {Q : Nat → α → Prop} {x : Engine → Run α} (hx : Routine D b Q x)
    (f : α → Text) : Routine D b D.Seen fun eng => x eng >>= fun a => pure (Value.text (f a)) :=
  .map hx fun _ _ _ _ _ _ => seen_text

theorem boolValue {x : Engine → Run Bool} (hx : Routine D b Any x) :
    Routine D b D.Seen fun eng => x eng >>= fun a => pure (Value.bool a) :=
  .map hx fun _ _ _ _ _ _ => seen_bool

theorem numberValue {x : Engine → Run Number} (hx : Routine D b Any x) :
    Routine D b D.Seen fun eng => x eng >>= fun a => pure (Value.number a) :=
  .map hx fun _ _ _ _ _ _ => seen_number

theorem runNative {arguments : List Value} (f : Native) (hv : D.Seen b v)
    (ha : D.Seen b arguments) : Routine D b D.Seen fun eng => eng.runNative f v arguments := by
  have harg (i : Nat) : D.Seen b (arguments.getD i .undefined) := ha.getD seen_undefined i
  cases f with
  | objectHasOwnProperty =>
    refine .bind (.toPropertyKey (harg 0)) fun b₁ k h₁ _ => ?_
    exact .bind (.toObject (hv.mono h₁)) fun _ _ _ ho => .boolValue (.hasOwnProperty ho)
  | objectToString => exact .textValue (.objectText hv) id
  | objectValueOf => exact .objectValue (.toObject hv)
  | functionToString =>
    refine .bind .heap fun b₁ h h₁ _ => ?_
    cases h.functionSource? v with
    | none => exact .fail _
    | some source => exact .give seen_text
  | symbolToString => exact .bind (.thisSymbol v) fun _ _ _ _ => .textValue .heap _
  | symbolValueOf => exact .map (.thisSymbol v) fun _ _ _ _ _ _ => seen_symbol
  | booleanToString => exact .textValue (.thisBool v) _
  | booleanValueOf => exact .boolValue (.thisBool v)
  | numberToString => exact .textValue (.thisNumber v) _
  | numberValueOf => exact .numberValue (.thisNumber v)
  | stringToString => exact .textValue (.thisText v) id
  | stringValueOf => exact .textValue (.thisText v) id
  | errorToString =>
    exact .bind (.thisObject _ hv) fun _ _ _ ho => .textValue (.errorText ho) id
  | dateGetTime => exact .numberValue (.thisTime v)
  | regexpFlags => exact .textValue (.regexpFlags hv) id
  | regexpSource => exact .textValue (.regexpSource v) id
  | regexpToString =>
    exact .bind (.thisObject _ hv) fun _ _ _ ho => .textValue (.regexpText ho) id
  | mapDelete => exact .boolValue (.mapDelete _)
  | mapGet => exact .mapGet _
  | mapHas => exact .boolValue (.mapHas _)
  | mapSet => exact .bind (.mapSet (harg 0) (harg 1)) fun _ _ h₁ _ => .give (hv.mono h₁)
  | setAdd => exact .bind (.setAdd (harg 0)) fun _ _ h₁ _ => .give (hv.mono h₁)
  | setDelete => exact .boolValue (.setDelete _)
  | setHas => exact .boolValue (.setHas _)
  | hostNext => exact .bind (.thisObject _ hv) fun _ o _ _ => .objectValue (.advance o)
  | uneval => exact .textValue (.uneval (harg 0)) id
  | objectToSource =>
    refine .ite (fun _ => .fail _) fun _ => ?_
    exact .bind (.toObject hv) fun _ _ _ ho => .textValue (.objectSource ho) id
  | arrayToSource =>
    refine .bind (.thisObject _ hv) fun b₁ o _ ho => .bind .heap fun b₂ h h₂ _ => ?_
    exact .ite (fun _ => .textValue (.arraySource (ho.mono h₂)) id) fun _ => .fail _
  | functionToSource => exact .textValue (.functionSource hv) id
  | stringToSource => exact .textValue (.thisText v) _
  | numberToSource => exact .textValue (.thisNumber v) _
  | booleanToSource => exact .textValue (.thisBool v) _
  | dateToSource => exact .textValue (.thisTime v) _
  | regexpToSource =>
    refine .bind (.regexp? v) fun b₁ found h₁ _ => ?_
    cases found with
    | none => exact .fail _
    | some found =>
      exact .bind (.thisObject _ (hv.mono h₁)) fun _ _ _ ho => .textValue (.regexpText ho) id
  | errorToSource =>
    exact .bind (.thisObject _ hv) fun _ _ _ ho => .textValue (.errorSource ho) id
  | defineAccessor half =>
    exact .bind (.defineAccessor half hv (harg 0) (harg 1)) fun _ _ _ _ => .give seen_undefined
  | lookupAccessor half => exact .lookupAccessor half hv (harg 0)
  | proxyCreate => exact .objectValue (.proxyCreate (harg 0) (harg 1))
  | proxyCreateFunction =>
    refine .objectValue (.proxyCreateFunction (harg 0) (harg 1) ?_)
    split
    · exact seen_none
    · exact seen_some.2 (harg 2)
  | iteratorConstructor => exact .objectValue (.newIteration (harg 0) _)
  | iterationNext => exact .iterationNext hv
  | iterationSelf => exact .give hv
  | arrayIterator =>
    exact .bind (.toObject hv) fun _ _ _ ho => .objectValue (.newEnumerable ho)
  | stringIterator =>
    refine .ite (fun _ => .fail _) fun _ => .bind (.toText hv) fun _ _ _ _ => ?_
    exact .objectValue (.newEnumerable nofun)
  | mapIterator =>
    refine .bind (.thisObject _ hv) fun b₁ o _ ho => .bind (.kind o) fun b₂ kind h₂ _ => ?_
    cases kind with
    | map data => exact .objectValue (.newEnumerable (ho.mono h₂))
    | _ => exact .fail _
  | setIterator =>
    refine .bind (.thisObject _ hv) fun b₁ o _ ho => .bind (.kind o) fun b₂ kind h₂ _ => ?_
    cases kind with
    | set data => exact .objectValue (.newEnumerable (ho.mono h₂))
    | _ => exact .fail _
  | objectIterator => exact .getV hv
  | stringQuote =>
    exact .ite (fun _ => .fail _) fun _ => .textValue (.toText hv) _
  | nothing => exact .give seen_undefined
  | probe => exact .give (harg 0)

end Routine

end ObjectModel
