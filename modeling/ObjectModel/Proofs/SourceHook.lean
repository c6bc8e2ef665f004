import ObjectModel.Proofs.Hosting

/-!
# Texts that come from source methods

The text that a source method gives is not written as it is: every surrogate without its partner
is replaced (`Text.lossy`), also where the text stands inside the literal of an array or of an
object.  So exactly the well-formed texts are written verbatim (`hook_text_lossy`).
-/

namespace ObjectModel

/-! ## Surrogates without their partners -/

namespace Text

/-- The unit at a position is a surrogate without its partner. -/
def isLoneAt (us : List UInt16) (i : Nat) : Bool :=
  us[i]?.any fun u =>
    isHighSurrogate u && !us[i + 1]?.any isLowSurrogate ||
      isLowSurrogate u && !(0 < i && us[i - 1]?.any isHighSurrogate)

theorem isLowSurrogate_of_isHighSurrogate {u : UInt16} (h : isHighSurrogate u = true) :
    isLowSurrogate u = false := by
  simp only [isHighSurrogate, isLowSurrogate, Bool.and_eq_true, decide_eq_true_eq,
    Bool.and_eq_false_iff, decide_eq_false_iff_not, UInt16.le_iff_toNat_le] at h ⊢
  have hhigh : (0xDBFF : UInt16).toNat = 0xDBFF := by decide
  have hlow : (0xDC00 : UInt16).toNat = 0xDC00 := by decide
  omega

/-- A unit before a text decides about its first surrogate only. -/
theorem isLoneAt_succ {u : UInt16} {us : List UInt16}
    (h : isHighSurrogate u = false ∨ ∀ v ∈ us.head?, isLowSurrogate v = false) (i : Nat) :
    isLoneAt (u :: us) (i + 1) = isLoneAt us i := by
  unfold isLoneAt
  cases i with
  | zero =>
    cases us with
    | nil => rfl
    | cons v rest =>
      rcases h with hu | hv
      · simp [hu]
      · have hlow : isLowSurrogate v = false := hv v rfl
        simp [hlow]
  | succ i => simp

theorem isLoneAt_zero (u : UInt16) (us : List UInt16) :
    isLoneAt (u :: us) 0 =
      (isHighSurrogate u && !us.head?.any isLowSurrogate || isLowSurrogate u) := by
  cases us <;> simp [isLoneAt]

/-- **Exactly the lone surrogates are replaced.** -/
theorem getElem?_lossyUnits (us : List UInt16) (i : Nat) :
    (lossyUnits us)[i]? = if isLoneAt us i then some replacement else us[i]? := by
  fun_induction lossyUnits us generalizing i with
  | case1 => simp [isLoneAt]
  | case2 u h =>
    cases i with
    | zero =>
      rw [isLoneAt_zero, if_pos (by simpa using h)]
      rfl
    | succ i => simp [isLoneAt]
  | case3 u h =>
    cases i with
    | zero =>
      rw [isLoneAt_zero, if_neg (by simpa using h)]
    | succ i => simp [isLoneAt]
  | case4 u v rest hu hv ih =>
    -- a pair is kept, and its second half is no partner for what follows
    have hv' : isHighSurrogate v = false := by
      cases hhigh : isHighSurrogate v with
      | false => rfl
      | true =>
        rw [isLowSurrogate_of_isHighSurrogate hhigh] at hv
        cases hv
    cases i with
    | zero =>
      rw [isLoneAt_zero, isLowSurrogate_of_isHighSurrogate hu, if_neg (by simp [hv])]
      rfl
    | succ i =>
      cases i with
      | zero => simp [isLoneAt, hu, hv']
      | succ i =>
        have hlone : isLoneAt (u :: v :: rest) (i + 2) = isLoneAt (v :: rest) (i + 1) := by
          simp [isLoneAt]
        rw [hlone, isLoneAt_succ (.inl hv')]
        exact ih i
  | case5 u v rest hu hv ih =>
    cases i with
    | zero =>
      rw [isLoneAt_zero, if_pos (by simp [hu, hv])]
      rfl
    | succ i =>
      rw [isLoneAt_succ (.inr (by simpa using hv))]
      exact ih i
  | case6 u v rest hu hv ih =>
    cases i with
    | zero =>
      rw [isLoneAt_zero, if_pos (by simp [hv])]
      rfl
    | succ i =>
      rw [isLoneAt_succ (.inl (by simpa using hu))]
      exact ih i
  | case7 u v rest hu hv ih =>
    cases i with
    | zero =>
      rw [isLoneAt_zero, if_neg (by simp [hu, hv])]
      rfl
    | succ i =>
      rw [isLoneAt_succ (.inl (by simpa using hu))]
      exact ih i

theorem wellFormedUnits_cons {u : UInt16} (hhigh : isHighSurrogate u = false)
    (hlow : isLowSurrogate u = false) (us : List UInt16) :
    wellFormedUnits (u :: us) = wellFormedUnits us := by
  cases us <;> simp [wellFormedUnits, hhigh, hlow]

theorem replacement_no_surrogate :
    isHighSurrogate replacement = false ∧ isLowSurrogate replacement = false := by decide

theorem wellFormedUnits_lossyUnits (us : List UInt16) :
    wellFormedUnits (lossyUnits us) = true := by
  have hreplaced := wellFormedUnits_cons replacement_no_surrogate.1 replacement_no_surrogate.2
  fun_induction lossyUnits us with
  | case1 => rfl
  | case2 u h => exact hreplaced []
  | case3 u h =>
    rw [Bool.or_eq_true, not_or, Bool.not_eq_true, Bool.not_eq_true] at h
    exact wellFormedUnits_cons h.1 h.2 []
  | case4 u v rest hu hv ih => simp [wellFormedUnits, hu, hv, ih]
  | case5 u v rest hu hv ih => rw [hreplaced, ih]
  | case6 u v rest hu hv ih => rw [hreplaced, ih]
  | case7 u v rest hu hv ih =>
    rw [wellFormedUnits_cons (by simpa using hu) (by simpa using hv), ih]

theorem lossyUnits_eq_self {us : List UInt16} (h : wellFormedUnits us = true) :
    lossyUnits us = us := by
  fun_induction lossyUnits us with
  | case1 => rfl
  | case2 u hu => simp_all [wellFormedUnits]
  | case3 u hu => rfl
  | case4 u v rest hu hv ih =>
    rw [ih (by simpa [wellFormedUnits, hu, hv] using h)]
  | case5 u v rest hu hv ih => simp [wellFormedUnits, hu, hv] at h
  | case6 u v rest hu hv ih => simp [wellFormedUnits, hu, hv] at h
  | case7 u v rest hu hv ih =>
    rw [ih (by simpa [wellFormedUnits, hu, hv] using h)]

/-- No pair is split behind a unit that is no high surrogate. -/
theorem lossyUnits_append {us : List UInt16} (vs : List UInt16)
    (h : ∀ u ∈ us.getLast?, isHighSurrogate u = false) :
    lossyUnits (us ++ vs) = lossyUnits us ++ lossyUnits vs := by
  fun_induction lossyUnits us with
  | case1 => rfl
  | case2 u hu =>
    have hhigh : isHighSurrogate u = false := h u rfl
    have hlow : isLowSurrogate u = true := by simpa [hhigh] using hu
    cases vs <;> simp [lossyUnits, hhigh, hlow]
  | case3 u hu =>
    rw [Bool.or_eq_true, not_or, Bool.not_eq_true, Bool.not_eq_true] at hu
    cases vs <;> simp [lossyUnits, hu]
  | case4 u v rest hu hv ih =>
    have hrest : ∀ w ∈ rest.getLast?, isHighSurrogate w = false := by
      intro w hw
      exact h w (by simp [List.getLast?_cons, Option.mem_def.1 hw])
    simp [lossyUnits, hu, hv, ih hrest]
  | case5 u v rest hu hv ih =>
    simp [lossyUnits, hu, hv, ← ih (by simpa [List.getLast?_cons] using h)]
  | case6 u v rest hu hv ih =>
    simp [lossyUnits, hu, hv, ← ih (by simpa [List.getLast?_cons] using h)]
  | case7 u v rest hu hv ih =>
    simp [lossyUnits, hu, hv, ← ih (by simpa [List.getLast?_cons] using h)]

/-- A well-formed text does not end within a pair. -/
theorem getLast?_of_wellFormedUnits {us : List UInt16} (h : wellFormedUnits us = true) :
    ∀ u ∈ us.getLast?, isHighSurrogate u = false := by
  fun_induction wellFormedUnits us with
  | case1 => simp
  | case2 u =>
    intro w hw
    cases hw
    simp_all
  | case3 u v rest hu ih =>
    rw [Bool.and_eq_true] at h
    intro w hw
    cases hrest : rest.getLast? with
    | none =>
      obtain rfl : rest = [] := List.getLast?_eq_none_iff.1 hrest
      obtain rfl : v = w := by simpa using hw
      cases hhigh : isHighSurrogate v with
      | false => rfl
      | true => simp [isLowSurrogate_of_isHighSurrogate hhigh] at h
    | some last =>
      rw [List.getLast?_cons, List.getLast?_cons, hrest] at hw
      exact ih h.2 w (hrest.trans hw)
  | case4 u v rest hu ih =>
    rw [Bool.and_eq_true] at h
    simpa [List.getLast?_cons] using ih h.2

theorem units_lossy (t : Text) : t.lossy.units = lossyUnits t.units := by
  unfold lossy
  split
  · next h => exact (lossyUnits_eq_self h).symm
  · rfl

/-- **Exactly the well-formed texts are kept.** -/
theorem lossy_eq_self_iff (t : Text) : t.lossy = t ↔ t.wellFormed = true := by
  constructor
  · intro h
    have hunits := wellFormedUnits_lossyUnits t.units
    rw [← units_lossy, h] at hunits
    exact hunits
  · intro h
    exact if_pos h

/-- The text does not end within a pair. -/
def EndsWhole (t : Text) : Prop := ∀ u ∈ t.units.getLast?, isHighSurrogate u = false

theorem EndsWhole.empty : EndsWhole .empty := by
  intro u hu
  cases hu

theorem EndsWhole.append {s t : Text} (hs : s.EndsWhole) (ht : t.EndsWhole) :
    (s ++ t).EndsWhole := by
  intro u hu
  have hlast : (s.units ++ t.units).getLast? = some u := hu
  rw [List.getLast?_append, Option.or_eq_some_iff] at hlast
  rcases hlast with hlast | ⟨-, hlast⟩
  · exact ht u hlast
  · exact hs u hlast

/-- The end of a text that is not empty decides. -/
theorem EndsWhole.behind (s : Text) {t : Text} (ht : t.EndsWhole) (hne : t ≠ .empty) :
    (s ++ t).EndsWhole := by
  intro u hu
  have hlast : (s.units ++ t.units).getLast? = some u := hu
  rw [List.getLast?_append, Option.or_eq_some_iff] at hlast
  rcases hlast with hlast | ⟨hnone, -⟩
  · exact ht u hlast
  · exact absurd (congrArg Text.mk (List.getLast?_eq_none_iff.1 hnone)) hne

theorem EndsWhole.of_wellFormed {t : Text} (h : t.wellFormed = true) : t.EndsWhole :=
  getLast?_of_wellFormedUnits h

/-- What stands behind a unit that is no high surrogate is replaced on its own. -/
theorem lossy_append {s : Text} (hs : s.EndsWhole)
    (t : Text) : (s ++ t).lossy = s.lossy ++ t.lossy := by
  have hunits : (s ++ t).lossy.units = (s.lossy ++ t.lossy).units := by
    show _ = s.lossy.units ++ t.lossy.units
    rw [units_lossy, units_lossy, units_lossy]
    exact lossyUnits_append t.units hs
  exact congrArg Text.mk hunits

/-- A replaced text stays as it is between two others, if the first ends in no high surrogate. -/
theorem lossy_append_lossy {s : Text} (hs : s.EndsWhole)
    (t s' : Text) : (s ++ t.lossy ++ s').lossy = s.lossy ++ t.lossy ++ s'.lossy := by
  have hwell : t.lossy.wellFormed = true := by
    rw [wellFormed, units_lossy]
    exact wellFormedUnits_lossyUnits t.units
  rw [append_assoc, lossy_append hs, lossy_append (.of_wellFormed hwell),
    (lossy_eq_self_iff _).2 hwell, append_assoc]

/-- The texts before and behind one of several that are joined. -/
theorem join_append (separator : Text) (before : List Text) (t : Text) (after : List Text) :
    join separator (before ++ t :: after) =
      concat (before.map (· ++ separator)) ++ t ++ concat (after.map (separator ++ ·)) := by
  have hafter : join separator (t :: after) = t ++ concat (after.map (separator ++ ·)) := by
    induction after generalizing t with
    | nil => exact (append_empty t).symm
    | cons next rest ih =>
      show t ++ (separator ++ join separator (next :: rest)) = _
      rw [ih, List.map_cons, concat, append_assoc]
  induction before with
  | nil => rw [List.nil_append, hafter]; rfl
  | cons first rest ih =>
    have hcons : join separator (first :: (rest ++ t :: after)) =
        first ++ (separator ++ join separator (rest ++ t :: after)) := by
      cases rest <;> rfl
    rw [List.cons_append, hcons, ih, List.map_cons, concat]
    simp only [append_assoc]

end Text

/-! ## Source methods -/

namespace Engine

variable {eng : Engine} {n : Nat} {o : Ref} {v : Value} {s t : Text} {m m' m₁ m₂ : Machine}

/-- The source method of a symbol or an object is found and gives a text. -/
structure Hooked (eng : Engine) (v : Value) (s : Text) (m m' : Machine) : Prop where
  kind : (∃ symbol, v = .symbol symbol) ∨ ∃ r, v = .object r
  yields : ∃ method f result m₁ m₂, eng.getV v "toSource" m = .ok method m₁ ∧
    m₁.heap.callable? method = some f ∧ eng.call (.object f) v [] m₁ = .ok result m₂ ∧
    eng.toText result m₂ = .ok s m'

/-- **The text of the source method is given with its lone surrogates replaced.** -/
theorem Hooked.uneval (h : eng.Hooked v s m m') : eng.uneval v m = .ok s.lossy m' := by
  obtain ⟨method, f, result, m₁, m₂, hlookup, hcallable, hcall, htext⟩ := h.yields
  rcases h.kind with ⟨symbol, rfl⟩ | ⟨r, rfl⟩
  all_goals
    rw [Engine.uneval, Run.bind_ok hlookup]
    simp only [Run.bind_apply, Run.callable?, hcallable, hcall, htext, Run.pure_apply]

/-- The source method of an object is found to be a builtin. -/
def FindsNative (eng : Engine) (g : Native) (o : Ref) (m m₁ : Machine) : Prop :=
  ∃ f data, eng.getV (.object o) "toSource" m = .ok (.object f) m₁ ∧
    m₁.heap.kind f = .function data ∧ data.behaviour = .native g

/-- A builtin source method is one that gives a text. -/
theorem FindsNative.hooked {g : Native} (h : (engine (n + 1)).FindsNative g o m m₁)
    (hrun : (engine n).runNative g (.object o) [] m₁ = .ok (.text t) m₂) :
    (engine (n + 1)).Hooked (.object o) t m m₂ := by
  obtain ⟨f, data, hlookup, hkind, hnative⟩ := h
  have hcallable : m₁.heap.callable? (.object f) = some f := Heap.callable?_function hkind
  refine ⟨.inr ⟨o, rfl⟩, _, f, .text t, m₁, m₂, hlookup, hcallable, ?_, rfl⟩
  rw [engine_call_native hkind hnative, hrun]

/-! ### Arrays -/

/-- The source of elements of which none is the last. -/
def leadingSources (eng : Engine) (o : Ref) : Nat → Nat → Run (List Text)
  | 0, _ => pure []
  | count + 1, start => do
    let key := Key.ofPosition start
    let item ←
      if ← eng.hasOwnProperty o key then
        let element ← eng.uneval (← eng.get o key)
        pure [element, ", "]
      else pure [Text.ofString ", "]
    return item ++ (← eng.leadingSources o count (start + 1))

theorem elementSources_add (eng : Engine) (o : Ref) (count rest start : Nat) :
    eng.elementSources o (count + (rest + 1)) start = do
      let before ← eng.leadingSources o count start
      return before ++ (← eng.elementSources o (rest + 1) (start + count)) := by
  induction count generalizing start with
  | zero =>
    simp [leadingSources]
  | succ count ih =>
    have hcount : count + 1 + (rest + 1) = count + (rest + 1) + 1 := by omega
    have hstart : start + (count + 1) = start + 1 + count := by omega
    have hlast : ¬ count + (rest + 1) = 0 := by omega
    rw [hcount, hstart, elementSources, leadingSources]
    simp only [ih, hlast, if_false, bind_assoc, pure_bind]
    refine bind_congr fun own => ?_
    cases own <;> simp only [Bool.false_eq_true, if_true, if_false, bind_assoc, pure_bind,
      List.append_assoc]

/-- What stands before an element does not end within a pair. -/
theorem endsWhole_leadingSources {count start : Nat} {before : List Text}
    (h : eng.leadingSources o count start m = .ok before m') : (Text.concat before).EndsWhole := by
  induction count generalizing start before m with
  | zero =>
    cases h
    exact .empty
  | succ count ih =>
    obtain ⟨own, m₁, -, h⟩ := Run.of_bind_ok h
    have hitem {item : List Text} {m₂ : Machine} (hitem : (Text.concat item).EndsWhole)
        (h : (do return item ++ (← eng.leadingSources o count (start + 1)) : Run (List Text)) m₂ =
          .ok before m') : (Text.concat before).EndsWhole := by
      obtain ⟨rest, m₃, hrest, h⟩ := Run.of_bind_ok h
      cases h
      rw [Text.concat_append]
      exact hitem.append (ih hrest)
    have hcomma : (Text.ofString ", ").EndsWhole := .of_wellFormed (by decide)
    cases own with
    | false => exact hitem (by rwa [Text.concat, Text.concat, Text.append_empty]) h
    | true =>
      obtain ⟨element, m₂, -, h⟩ := Run.of_bind_ok h
      obtain ⟨text, m₃, -, h⟩ := Run.of_bind_ok h
      refine hitem ?_ h
      rw [Text.concat, Text.concat, Text.concat, Text.append_empty]
      exact .behind text hcomma (by decide)

/-- The builtin source method of an array comes to an own element, with `count` more to follow. -/
def ReachesElement (n : Nat) (o : Ref) (v : Value) (before : List Text) (i count : Nat)
    (start m : Machine) : Prop :=
  ∃ m₀ m₁ m₂ m₃, (engine (n + 1)).FindsNative .arrayToSource o start m₀ ∧
    m₀.heap.isArray (.object o) = true ∧ m₀.source.isVisiting o = false ∧
    (engine n).lengthOfArrayLike o { m₀ with source := m₀.source.enter o } =
      .ok (i + (count + 1)) m₁ ∧
    (engine n).leadingSources o i 0 m₁ = .ok before m₂ ∧
    (engine n).hasOwnProperty o (.ofPosition i) m₂ = .ok true m₃ ∧
    (engine n).get o (.ofPosition i) m₃ = .ok v m

/-- The literal of an array around the text of one element. -/
def elementText (before : List Text) (t : Text) (count : Nat) (after : List Text) : Text :=
  Text.ofString "[" ++ Text.concat before ++ t ++
    Text.concat ((if count = 0 then [] else [Text.ofString ", "]) ++ after ++ [Text.ofString "]"])

theorem ReachesElement.hooked {before after : List Text} {i count : Nat} {start : Machine}
    (h : ReachesElement n o v before i count start m) (hv : (engine n).uneval v m = .ok t m')
    (hafter : (engine n).elementSources o count (i + 1) m' = .ok after m₁) :
    (engine (n + 1)).Hooked (.object o) (elementText before t count after) start
      { m₁ with source := m₁.source.leave o } := by
  obtain ⟨m₀, m₂, m₃, m₄, hnative, harray, hnew, hlength, hbefore, hown, hget⟩ := h
  have helements : (engine n).elementSources o (i + (count + 1)) 0 m₂ =
      .ok (before ++ ((if count = 0 then [t] else [t, ", "]) ++ after)) m₁ := by
    rw [elementSources_add, Run.bind_ok hbefore, Nat.zero_add, elementSources, bind_assoc]
    rw [Run.bind_ok hown]
    simp only [if_true, bind_assoc, pure_bind]
    rw [Run.bind_ok hget, Run.bind_ok hv, Run.bind_ok hafter]
    rfl
  have htext : Text.ofString "[" ++ Text.concat
      (before ++ ((if count = 0 then [t] else [t, ", "]) ++ after) ++ [Text.ofString "]"]) =
      elementText before t count after := by
    unfold elementText
    split <;> simp only [Text.concat_append, Text.concat, Text.append_assoc, Text.append_empty,
      List.nil_append]
  have hsource : (engine n).arraySource o m₀ =
      .ok (elementText before t count after) { m₁ with source := m₁.source.leave o } := by
    rw [arraySource, visit_apply, if_neg (by simp [hnew]), Run.bind_ok hlength,
      Run.bind_ok helements, Run.pure_apply, htext]
  refine hnative.hooked ?_
  show (do
    if (← Run.heap).isArray (.object o) then return .text (← (engine n).arraySource o)
    else Run.fail (.receiver .arrayToSource) : Run Value) m₀ = _
  have hheap : Run.heap m₀ = .ok m₀.heap m₀ := rfl
  rw [Run.bind_ok hheap, if_pos harray, Run.bind_ok hsource]
  rfl

/-! ### Objects -/

/-- The builtin source method of an object comes to a data property, with the keys `after` to
follow. -/
def ReachesProperty (n : Nat) (o : Ref) (k : Key) (v : Value) (before : List Text)
    (after : List Key) (depth : Nat) (start m : Machine) : Prop :=
  ∃ keys d m₀ m₁ m₂, (engine (n + 1)).FindsNative .objectToSource o start m₀ ∧
    m₀.source.isVisiting o = false ∧ m₀.source.depth = depth ∧
    (engine n).enumerableOwnKeys o { m₀ with source := m₀.source.enter o } =
      .ok (keys ++ k :: after) m₁ ∧
    (engine n).propertySources o keys m₁ = .ok before m₂ ∧
    (engine n).getOwnProperty o k m₂ = .ok (some d) m ∧ d.isAccessor = false ∧ d.value = some v

/-- The literal of an object around the text of one value. -/
def propertyText (depth : Nat) (before : List Text) (k : Key) (t : Text) (after : List Text) :
    Text :=
  Text.ofString (if 0 < depth then "\x7b" else "(\x7b") ++
    Text.concat (before.map (· ++ Text.ofString ", ")) ++ k.literalName ++ Text.ofString ":" ++ t ++
    (Text.concat (after.map (Text.ofString ", " ++ ·)) ++
      Text.ofString (if 0 < depth then "\x7d" else "\x7d)"))

theorem propertySources_append (eng : Engine) (o : Ref) (ks ks' : List Key) :
    eng.propertySources o (ks ++ ks') = do
      let before ← eng.propertySources o ks
      return before ++ (← eng.propertySources o ks') := by
  induction ks with
  | nil => simp [propertySources]
  | cons k rest ih =>
    rw [List.cons_append, propertySources, propertySources]
    simp only [ih, bind_assoc, pure_bind, List.append_assoc]

theorem ReachesProperty.hooked {k : Key} {before rest : List Text} {after : List Key} {depth : Nat}
    {start : Machine} (h : ReachesProperty n o k v before after depth start m)
    (hv : (engine n).uneval v m = .ok t m')
    (hrest : (engine n).propertySources o after m' = .ok rest m₁) :
    (engine (n + 1)).Hooked (.object o) (propertyText depth before k t rest) start
      { m₁ with source := m₁.source.leave o } := by
  obtain ⟨keys, d, m₀, m₂, m₃, hnative, hnew, rfl, hkeys, hbefore, hown, hdata, hvalue⟩ := h
  have hentry : (engine n).propertySource o k m₃ =
      .ok (some (k.literalName ++ Text.ofString ":" ++ t)) m' := by
    rw [propertySource, Run.bind_ok hown]
    simp only [hdata, hvalue, Bool.false_eq_true, if_false, Option.getD_some]
    rw [Run.bind_ok hv]
    rfl
  have hentries : (engine n).propertySources o (keys ++ k :: after) m₂ =
      .ok (before ++ (k.literalName ++ Text.ofString ":" ++ t) :: rest) m₁ := by
    rw [propertySources_append, Run.bind_ok hbefore, propertySources]
    simp only [bind_assoc]
    rw [Run.bind_ok hentry, Run.bind_ok hrest]
    rfl
  have hsource : (engine n).objectSource o m₀ =
      .ok (propertyText m₀.source.depth before k t rest)
        { m₁ with source := m₁.source.leave o } := by
    have hmachine (m : Machine) : Run.machine m = .ok m m := rfl
    have hdepth : (1 < (m₀.source.enter o).depth) = (0 < m₀.source.depth) := by
      simp [SourceContext.enter]
    rw [objectSource, visit_apply, if_neg (by simp [hnew]), Run.bind_ok (hmachine _),
      Run.bind_ok hkeys, Run.bind_ok hentries, Run.pure_apply, Text.join_append, propertyText]
    simp only [hdepth]
    split <;> simp only [Text.concat, Text.append_assoc, Text.append_empty]
  refine hnative.hooked ?_
  show (do return .text (← (engine n).objectSource o) : Run Value) m₀ = _
  rw [Run.bind_ok hsource]
  rfl

end Engine

/-- **A text from a source method is written with its lone surrogates replaced**, on its own as well
as inside the literal of an array or an object.  So it is written verbatim if and only if it is
well-formed. -/
theorem hook_text_lossy {n : Nat} {v : Value} {s : Text} {m m' : Machine}
    (h : (engine n).Hooked v s m m') :
    (engine n).uneval v m = .ok s.lossy m' ∧
    (∀ i, s.lossy.units[i]? =
      if Text.isLoneAt s.units i then some Text.replacement else s.units[i]?) ∧
    (s.lossy = s ↔ s.wellFormed = true) ∧
    (∀ {o before i count start after m₁}, Engine.ReachesElement n o v before i count start m →
      (engine n).elementSources o count (i + 1) m' = .ok after m₁ →
      (engine (n + 1)).uneval (.object o) start =
        .ok (Text.lossy (Text.ofString "[" ++ Text.concat before) ++ s.lossy ++
            (Text.concat ((if count = 0 then [] else [Text.ofString ", "]) ++ after ++
              [Text.ofString "]"])).lossy)
          { m₁ with source := m₁.source.leave o }) ∧
    ∀ {o k before after depth start rest m₁},
      Engine.ReachesProperty n o k v before after depth start m →
      (engine n).propertySources o after m' = .ok rest m₁ →
      (engine (n + 1)).uneval (.object o) start =
        .ok (Text.lossy (Text.ofString (if 0 < depth then "\x7b" else "(\x7b") ++
              Text.concat (before.map (· ++ Text.ofString ", ")) ++ k.literalName ++
              Text.ofString ":") ++ s.lossy ++
            Text.lossy (Text.concat (rest.map (Text.ofString ", " ++ ·)) ++
              Text.ofString (if 0 < depth then "\x7d" else "\x7d)")))
          { m₁ with source := m₁.source.leave o } := by
  refine ⟨h.uneval, fun i => ?_, s.lossy_eq_self_iff, fun hreach hafter => ?_,
    fun hreach hrest => ?_⟩
  · rw [Text.units_lossy]
    exact Text.getElem?_lossyUnits s.units i
  · have hbefore := hreach
    obtain ⟨m₀, m₁, m₂, m₃, -, -, -, -, hleading, -⟩ := hbefore
    have hwhole : (Text.ofString "[" ++ Text.concat _).EndsWhole :=
      .append (.of_wellFormed (by decide)) (Engine.endsWhole_leadingSources hleading)
    rw [(hreach.hooked h.uneval hafter).uneval, Engine.elementText,
      Text.lossy_append_lossy hwhole]
  · have hwhole (head : Text) : (head ++ Text.ofString ":").EndsWhole :=
      .behind head (.of_wellFormed (by decide)) (by decide)
    rw [(hreach.hooked h.uneval hrest).uneval, Engine.propertyText,
      Text.lossy_append_lossy (hwhole _)]

/-! ### A source method that gives half a pair -/

/-- A high surrogate between two letters. -/
def Text.halfPair : Text := ⟨[0x61, 0xD83D, 0x62]⟩

/-- An object whose source method gives half a pair. -/
def Expr.halfPairSource : Expr :=
  .operation (.create (.object none [(0, 1)]))
    [.value (.text "toSource"),
      .operation (.create (.function 1
        { name := "f", verb := none, isConstructor := false, source := none, length := 0
          body := [0], label := "f", logged := false }))
        [.value (.text Text.halfPair), .value .undefined] none]
    (some "a")

/-- An array with that object at `0` and, at `1`, an object with that object under `x`. -/
def Machine.halfPairSource : Machine :=
  Run.final ((engine 30).answer (.evaluate none (.array [.halfPairSource,
    .operation (.create (.object none [(0, 1)])) [.value (.text "x"), .name "a"] none]))
    (Session.initialMachine ⟨false, false⟩))

/-- The half pair is replaced in both places. -/
theorem hook_text_lossy_halfPair :
    ∃ m m' m₁, (engine 20).Hooked (.object ⟨74⟩) .halfPair m m' ∧
      Engine.ReachesElement 20 ⟨77⟩ (.object ⟨74⟩) [] 0 1 Machine.halfPairSource m ∧
      (engine 20).uneval (.object ⟨74⟩) m = .ok ⟨[0x61, 0xFFFD, 0x62]⟩ m' ∧
      (engine 21).uneval (.object ⟨77⟩) Machine.halfPairSource =
        .ok ⟨[0x5B, 0x61, 0xFFFD, 0x62, 0x2C, 0x20, 0x7B, 0x78, 0x3A, 0x61, 0xFFFD, 0x62, 0x7D,
          0x5D]⟩ m₁ := by
  have hrun : Run.given? ((do
      let method ← (engine 21).getV (.object ⟨77⟩) "toSource"
      let m₀ ← Run.machine
      Run.change fun m => { m with source := m.source.enter ⟨77⟩ }
      let length ← (engine 20).lengthOfArrayLike ⟨77⟩
      let own ← (engine 20).hasOwnProperty ⟨77⟩ (.ofPosition 0)
      let v ← (engine 20).get ⟨77⟩ (.ofPosition 0)
      let hook ← (engine 20).getV v "toSource"
      let m ← Run.machine
      let result ← (engine 20).call (.object ⟨75⟩) v []
      let s ← (engine 20).toText result
      let after ← (engine 20).elementSources ⟨77⟩ 1 1
      return ([method, v], m.heap.callable? hook, s :: after,
        [m₀.heap.native? (.object ⟨67⟩) == some Native.arrayToSource, m₀.heap.isArray (.object ⟨77⟩),
          !m₀.source.isVisiting ⟨77⟩, length == 2, own])) Machine.halfPairSource) =
      some ([.object ⟨67⟩, .object ⟨74⟩], some ⟨75⟩,
        [.halfPair, ⟨[0x7B, 0x78, 0x3A, 0x61, 0xFFFD, 0x62, 0x7D]⟩],
        [true, true, true, true, true]) := by decide +kernel
  generalize Machine.halfPairSource = start at *
  have hrun := Run.eq_ok_of_given? hrun
  obtain ⟨method, m₀, hmethod, hrun⟩ := Run.of_bind_ok hrun
  obtain ⟨_, _, hmachine, hrun⟩ := Run.of_bind_ok hrun
  cases hmachine
  obtain ⟨_, _, hchange, hrun⟩ := Run.of_bind_ok hrun
  cases hchange
  obtain ⟨length, m₁, hlength, hrun⟩ := Run.of_bind_ok hrun
  obtain ⟨own, m₂, hown, hrun⟩ := Run.of_bind_ok hrun
  obtain ⟨v, m₃, hget, hrun⟩ := Run.of_bind_ok hrun
  obtain ⟨hook, m₄, hhook, hrun⟩ := Run.of_bind_ok hrun
  obtain ⟨_, _, hmachine, hrun⟩ := Run.of_bind_ok hrun
  cases hmachine
  obtain ⟨result, m₅, hcall, hrun⟩ := Run.of_bind_ok hrun
  obtain ⟨s, m₆, htext, hrun⟩ := Run.of_bind_ok hrun
  obtain ⟨after, m₇, hafter, hrun⟩ := Run.of_bind_ok hrun
  simp only [Run.pure_apply, EStateM.Result.ok.injEq, Prod.mk.injEq, List.cons.injEq, and_true,
    beq_iff_eq, Bool.not_eq_true'] at hrun
  obtain ⟨⟨⟨rfl, rfl⟩, hcallable, ⟨rfl, rfl⟩, hnative, harray, hnew, rfl, rfl⟩, -⟩ := hrun
  obtain ⟨f, data, hf, hkind, hbehaviour⟩ := Heap.native?_eq_some hnative
  cases hf
  have hhooked : (engine 20).Hooked (.object ⟨74⟩) .halfPair m₃ m₆ :=
    ⟨.inr ⟨_, rfl⟩, hook, ⟨75⟩, result, m₄, m₅, hhook, hcallable, hcall, htext⟩
  have hreach : Engine.ReachesElement 20 ⟨77⟩ (.object ⟨74⟩) [] 0 1 start m₃ :=
    ⟨m₀, m₁, m₁, m₂, ⟨⟨67⟩, data, hmethod, hkind, hbehaviour⟩, harray, hnew, hlength, rfl, hown,
      hget⟩
  obtain ⟨huneval, -, -, helement, -⟩ := hook_text_lossy hhooked
  have hlossy : Text.halfPair.lossy = ⟨[0x61, 0xFFFD, 0x62]⟩ := by decide
  refine ⟨m₃, m₆, { m₇ with source := m₇.source.leave ⟨77⟩ }, hhooked, hreach, ?_, ?_⟩
  · rw [huneval, hlossy]
  · rw [helement hreach hafter, hlossy]
    rfl

end ObjectModel
