import ObjectModel.Proofs.IterationObject
import ObjectModel.Proofs.SourceHook

/-!
# Regular expressions as literals

A regular expression literal is a slash, a body, a slash and the flags.  `regexpLiteral?` reads one:
a slash in the body ends it unless a backslash stands before it or brackets around it, and a line
break is refused everywhere.  It gives a body and flags exactly if the text is put together from
them and the body is one (`regexpLiteral?_eq_some_iff`).

The source text of a regular expression is put together from its pattern as it is, so it is a
literal with these flags exactly if the pattern is a body, or empty (`regexp_source_literal`).
-/

namespace ObjectModel

namespace Text

/-! ## Bodies -/

def slash : UInt16 := 0x2F

/-- The units that end a line. -/
def isLineTerminator (u : UInt16) : Bool := u = 0x0A || u = 0x0D || u = 0x2028 || u = 0x2029

/-- Where a reader stands in a body: in brackets or not, and behind a backslash or not. -/
inductive BodyState where
  | outside
  | outsideEscape
  | inside
  | insideEscape
  deriving DecidableEq, Repr

namespace BodyState

/-- Where the reader stands behind one more unit. -/
def step (s : BodyState) (u : UInt16) : BodyState :=
  match s with
  | .outside => if u = 0x5C then .outsideEscape else if u = 0x5B then .inside else .outside
  | .outsideEscape => .outside
  | .inside => if u = 0x5C then .insideEscape else if u = 0x5D then .outside else .inside
  | .insideEscape => .inside

/-- Where the reader stands behind several units. -/
def run (s : BodyState) (us : List UInt16) : BodyState := us.foldl step s

/-- The units go on with a body up to its end: no line breaks, slashes only in an escape or in
brackets, and neither of the two is left open. -/
structure Completes (s : BodyState) (us : List UInt16) : Prop where
  unbroken : ∀ u ∈ us, isLineTerminator u = false
  slashes : ∀ before after, us = before ++ slash :: after → s.run before ≠ .outside
  closed : s.run us = .outside

theorem completes_nil {s : BodyState} : s.Completes [] ↔ s = .outside := by
  constructor
  · exact Completes.closed
  · rintro rfl
    refine ⟨fun u hu => ?_, fun before after h => ?_, rfl⟩
    · cases hu
    · cases before <;> cases h

theorem completes_cons {s : BodyState} {u : UInt16} {us : List UInt16} :
    s.Completes (u :: us) ↔
      isLineTerminator u = false ∧ ¬ (s = .outside ∧ u = slash) ∧ (s.step u).Completes us := by
  constructor
  · rintro ⟨hunbroken, hslashes, hclosed⟩
    refine ⟨hunbroken u List.mem_cons_self, ?_, fun v hv => hunbroken v (List.mem_cons_of_mem _ hv),
      fun before after h => ?_, hclosed⟩
    · rintro ⟨rfl, rfl⟩
      exact hslashes [] us rfl rfl
    · exact hslashes (u :: before) after (congrArg (u :: ·) h)
  · rintro ⟨hu, hslash, hunbroken, hslashes, hclosed⟩
    refine ⟨?_, fun before after h => ?_, hclosed⟩
    · rintro v (_ | ⟨_, hv⟩)
      · exact hu
      · exact hunbroken v hv
    · cases before with
      | nil =>
        cases h
        exact fun hs => hslash ⟨hs, rfl⟩
      | cons v before =>
        cases h
        exact hslashes before after rfl

end BodyState

/-- The text is the body of a literal. -/
structure IsRegexpBody (t : Text) : Prop where
  nonempty : t.units ≠ []
  unstarred : t.units.head? ≠ some 0x2A
  completes : BodyState.outside.Completes t.units

/-! ## Reading -/

/-- The units up to the slash that ends a body, and those behind it. -/
def takeBody? : BodyState → List UInt16 → Option (List UInt16 × List UInt16)
  | _, [] => none
  | s, u :: rest =>
    if isLineTerminator u then none
    else if s = .outside ∧ u = slash then some ([], rest)
    else (takeBody? (s.step u) rest).map fun e => (u :: e.1, e.2)

/-- The body and the flags of a regular expression literal. -/
def regexpLiteral? (t : Text) : Option (Text × Text) :=
  match t.units with
  | [] => none
  | u :: rest =>
    if u = slash then
      (takeBody? .outside rest).bind fun e =>
        if e.1 = [] ∨ e.1.head? = some 0x2A then none else some (⟨e.1⟩, ⟨e.2⟩)
    else none

/-- A body is taken if it completes what has been read. -/
theorem takeBody?_eq_some_iff {s : BodyState} {us body rest : List UInt16} :
    takeBody? s us = some (body, rest) ↔ us = body ++ slash :: rest ∧ s.Completes body := by
  induction us generalizing s body with
  | nil => simp [takeBody?]
  | cons u us ih =>
    have hslash : isLineTerminator slash = false := by decide
    rw [takeBody?]
    cases body with
    | nil =>
      rw [BodyState.completes_nil, List.nil_append, List.cons.injEq]
      split
      · next hbreak =>
        refine ⟨fun h => (by cases h), ?_⟩
        rintro ⟨⟨rfl, -⟩, -⟩
        rw [hslash] at hbreak
        cases hbreak
      · split
        · next hend => simp [hend]
        · next hend =>
          refine ⟨fun h => ?_, fun h => absurd ⟨h.2, h.1.1⟩ hend⟩
          obtain ⟨e, -, he⟩ := Option.map_eq_some_iff.1 h
          cases he
    | cons v body =>
      rw [BodyState.completes_cons, List.cons_append, List.cons.injEq]
      split
      · next hbreak =>
        refine ⟨fun h => (by cases h), ?_⟩
        rintro ⟨⟨rfl, -⟩, hunbroken, -⟩
        rw [hunbroken] at hbreak
        cases hbreak
      · next hunbroken =>
        split
        · next hend =>
          refine ⟨fun h => (by cases h), ?_⟩
          rintro ⟨⟨rfl, -⟩, -, hslash, -⟩
          exact absurd hend hslash
        · next hend =>
          constructor
          · intro h
            obtain ⟨⟨body', rest'⟩, hrest, he⟩ := Option.map_eq_some_iff.1 h
            cases he
            obtain ⟨hus, hcompletes⟩ := ih.1 hrest
            exact ⟨⟨rfl, hus⟩, Bool.eq_false_iff.2 hunbroken, hend, hcompletes⟩
          · rintro ⟨⟨rfl, hus⟩, -, -, hcompletes⟩
            rw [ih.2 ⟨hus, hcompletes⟩]
            rfl

/-- **A literal is read exactly if it is put together from a body and the flags.** -/
theorem regexpLiteral?_eq_some_iff {t body flags : Text} :
    regexpLiteral? t = some (body, flags) ↔
      t = Text.ofString "/" ++ body ++ Text.ofString "/" ++ flags ∧ body.IsRegexpBody := by
  obtain ⟨us⟩ := t
  obtain ⟨body⟩ := body
  obtain ⟨flags⟩ := flags
  have htext : (⟨us⟩ : Text) =
      Text.ofString "/" ++ ⟨body⟩ ++ Text.ofString "/" ++ ⟨flags⟩ ↔
        us = slash :: (body ++ slash :: flags) := by
    have hunits : (Text.ofString "/" ++ ⟨body⟩ ++ Text.ofString "/" ++ ⟨flags⟩ : Text) =
        ⟨slash :: (body ++ slash :: flags)⟩ := by
      have hslash : Text.ofString "/" = ⟨[slash]⟩ := by decide
      rw [hslash]
      show Text.mk ((([slash] ++ body) ++ [slash]) ++ flags) = _
      rw [List.append_assoc, List.append_assoc]
      rfl
    rw [hunits, Text.mk.injEq]
  rw [htext]
  cases us with
  | nil => simp [regexpLiteral?]
  | cons u us =>
    simp only [regexpLiteral?, List.cons.injEq]
    by_cases hu : u = slash
    · rw [if_pos hu, Option.bind_eq_some_iff]
      constructor
      · rintro ⟨e, htake, he⟩
        split at he
        · cases he
        · next hbody =>
          cases he
          obtain ⟨rfl, hcompletes⟩ := takeBody?_eq_some_iff.1 htake
          exact ⟨⟨hu, rfl⟩, fun h => hbody (.inl h), fun h => hbody (.inr h), hcompletes⟩
      · rintro ⟨⟨-, rfl⟩, hnonempty, hunstarred, hcompletes⟩
        exact ⟨_, takeBody?_eq_some_iff.2 ⟨rfl, hcompletes⟩,
          if_neg fun h => h.elim hnonempty hunstarred⟩
    · rw [if_neg hu]
      exact ⟨fun h => (by cases h), fun h => absurd h.1.1 hu⟩

end Text

/-! ## The source text of a regular expression -/

/-- The pattern as the source text of a regular expression shows it. -/
def Text.shownPattern (source : Text) : Text :=
  if source.isEmpty then Engine.emptyPattern else source

theorem Text.isRegexpBody_emptyPattern : Engine.emptyPattern.IsRegexpBody := by
  have hread : regexpLiteral? "/(?:)/" = some (Engine.emptyPattern, .empty) := by decide
  exact (regexpLiteral?_eq_some_iff.1 hread).2

/-- The prototype of regular expressions is as it was made, in what concerns their source text. -/
structure Heap.RegexpsIntact (h : Heap) : Prop where
  proxy : (h.object Intrinsic.regexpPrototype.ref).isProxy = false
  method : h.HoldsNative Intrinsic.regexpPrototype.ref "toSource" .regexpToSource
  source : h.HoldsGetter Intrinsic.regexpPrototype.ref "source" .regexpSource
  flags : h.HoldsGetter Intrinsic.regexpPrototype.ref "flags" .regexpFlags

section Source

variable {m : Machine} {r : Ref} {source flags : Text}
  (hr : m.heap.object r = .new (some Intrinsic.regexpPrototype.ref) (.regexp source flags))
  (hintact : m.heap.RegexpsIntact) (n : Nat)

theorem Text.ascii_of_flagsAllowed {flags : Text} (h : Engine.flagsAllowed flags.units = true) :
    flags.Ascii := by
  obtain ⟨us⟩ := flags
  have hknown : ("dgimsuvy".toList.all
      fun c => decide ((UInt16.ofNat c.toNat).toNat < 0x80)) = true := by decide
  show ∀ u ∈ us, u.toNat < 0x80
  induction us with
  | nil =>
    intro u hu
    cases hu
  | cons u us ih =>
    simp only [Engine.flagsAllowed, Bool.and_eq_true, List.any_eq_true, beq_iff_eq] at h
    obtain ⟨⟨⟨c, hc, rfl⟩, -⟩, hrest⟩ := h
    rintro v (_ | ⟨_, hv⟩)
    · exact of_decide_eq_true (List.all_eq_true.1 hknown c hc)
    · exact ih hrest v hv

include hr

/-- What a regular expression inherits is read from its prototype. -/
theorem engine_getFor_regexp (k : Key) (receiver : Value) :
    (engine (n + 2)).getFor r k receiver m =
      (engine (n + 1)).getFor Intrinsic.regexpPrototype.ref k receiver m := by
  refine engine_getFor_inherited ?_ ?_ ?_
  · rw [hr]
    rfl
  · rw [hr]
    rfl
  · rw [hr]
    rfl

theorem regexp?_apply : Engine.regexp? (.object r) m = .ok (some (source, flags)) m := by
  have hkind : m.heap.kind r = .regexp source flags := congrArg Object.kind hr
  simp only [Engine.regexp?, Run.bind_apply, Run.kind, hkind]
  rfl

include hintact

/-- A getter of the prototype runs for the regular expression. -/
theorem engine_get_regexp {k : Key} {g : Native}
    (hk : m.heap.HoldsGetter Intrinsic.regexpPrototype.ref k g) :
    (engine (n + 3)).get r k m = (engine n).runNative g (.object r) [] m := by
  obtain ⟨d, f, data, hd, hv, hget, hkind, hbehaviour⟩ := hk.exists_function
  refine (engine_getFor_regexp hr _ _ _).trans ?_
  rw [engine_getFor_accessor hintact.proxy hd hv, hget]
  exact engine_call_native hkind hbehaviour _ _

theorem regexpText_apply :
    (engine (n + 3)).regexpText r m =
      .ok (Text.ofString "/" ++ source.shownPattern ++ Text.ofString "/" ++ flags) m := by
  have hsource : (engine (n + 3)).get r "source" m = .ok (.text source.shownPattern) m := by
    rw [engine_get_regexp hr hintact n hintact.source]
    show (Engine.regexpSource (.object r) >>= fun t => pure (Value.text t)) m = _
    have hread : Engine.regexpSource (.object r) m = .ok source.shownPattern m := by
      rw [Engine.regexpSource, Run.bind_ok (regexp?_apply hr)]
      rfl
    rw [Run.bind_ok hread]
    rfl
  have hflags : (engine (n + 3)).get r "flags" m = .ok (.text flags) m := by
    rw [engine_get_regexp hr hintact n hintact.flags]
    show (Engine.regexpFlags (.object r) >>= fun t => pure (Value.text t)) m = _
    have hread : Engine.regexpFlags (.object r) m = .ok flags m := by
      show (Engine.regexp? (.object r) >>= fun e => pure ((e.map Prod.snd).getD .empty)) m = _
      rw [Run.bind_ok (regexp?_apply hr)]
      rfl
    rw [Run.bind_ok hread]
    rfl
  have htext (t : Text) : (engine (n + 3)).toText (.text t) m = .ok t m := rfl
  exact (Run.bind_ok hsource).trans ((Run.bind_ok (htext _)).trans ((Run.bind_ok hflags).trans
    (Run.bind_ok (htext _))))

/-- **The source text of a regular expression is its pattern between slashes, with the flags.** -/
theorem uneval_regexp (hsource : source.wellFormed = true)
    (hflags : Engine.flagsAllowed flags.units = true) :
    (engine (n + 4)).uneval (.object r) m =
      .ok (Text.ofString "/" ++ source.shownPattern ++ Text.ofString "/" ++ flags) m := by
  obtain ⟨d, f, data, hd, hv, hkind, hbehaviour⟩ := hintact.method.exists_function
  have hread : (engine (n + 4)).getFor r "toSource" (.object r) m = .ok (.object f) m :=
    (engine_getFor_regexp hr (n + 2) _ _).trans (engine_getFor_data hintact.proxy hd hv)
  have hmethod : (engine (n + 4)).getV (.object r) "toSource" m = .ok (.object f) m := hread
  have hcall : (engine (n + 4)).call (.object f) (.object r) [] m = .ok (.text
      (Text.ofString "/" ++ source.shownPattern ++ Text.ofString "/" ++ flags)) m := by
    rw [engine_call_native hkind hbehaviour]
    refine (Run.bind_ok (regexp?_apply hr)).trans ?_
    exact Run.bind_ok (regexpText_apply hr hintact n)
  have hhooked : (engine (n + 4)).Hooked (.object r)
      (Text.ofString "/" ++ source.shownPattern ++ Text.ofString "/" ++ flags) m m :=
    ⟨.inr ⟨r, rfl⟩, _, f, _, m, m, hmethod, Heap.callable?_function hkind, hcall, rfl⟩
  rw [hhooked.uneval]
  have hslash : (Text.ofString "/").wellFormed = true := by decide
  have hshown : source.shownPattern.wellFormed = true := by
    unfold Text.shownPattern
    split
    · decide
    · exact hsource
  have hlossy {t : Text} (ht : t.wellFormed = true) : t.lossy = t := (Text.lossy_eq_self_iff t).2 ht
  have hwhole {t : Text} (ht : t.wellFormed = true) : t.EndsWhole := .of_wellFormed ht
  rw [Text.lossy_append (((hwhole hslash).append (hwhole hshown)).append (hwhole hslash)),
    Text.lossy_append ((hwhole hslash).append (hwhole hshown)), Text.lossy_append (hwhole hslash),
    hlossy hslash, hlossy hshown, (Text.ascii_of_flagsAllowed hflags).lossy_eq]

end Source

/-- The regular expression was made with flags that are allowed. -/
theorem newRegexp_ok {source flags : Text} {m m₁ : Machine} {r : Ref}
    (h : Engine.newRegexp source flags m = .ok r m₁) :
    Engine.flagsAllowed flags.units = true ∧ m₁.heap.object r =
      .new (some Intrinsic.regexpPrototype.ref) (.regexp source flags) := by
  unfold Engine.newRegexp at h
  split at h
  · next hflags =>
    cases h
    exact ⟨hflags, m.heap.object_allocate_self _⟩
  · cases h

/-- **The source text of a regular expression is a literal with its flags exactly if the pattern is a
body or empty.**  The pattern stands in the text as it is, whatever units it has: a slash that is
neither escaped nor in brackets ends the literal early, a line break or an open bracket leaves it
without an end. -/
theorem regexp_source_literal {source flags : Text} (hsource : source.wellFormed = true)
    {m m₁ m₂ : Machine} {r : Ref} (hnew : Engine.newRegexp source flags m = .ok r m₁)
    (hsame : m₂.heap.object r = m₁.heap.object r) (hintact : m₂.heap.RegexpsIntact) (n : Nat) :
    ∃ text, (engine (n + 4)).uneval (.object r) m₂ = .ok text m₂ ∧
      text = Text.ofString "/" ++ source.shownPattern ++ Text.ofString "/" ++ flags ∧
      ∀ body, Text.regexpLiteral? text = some (body, flags) ↔
        body = source.shownPattern ∧ (source.isEmpty = true ∨ source.IsRegexpBody) := by
  obtain ⟨hflags, hobject⟩ := newRegexp_ok hnew
  refine ⟨_, uneval_regexp (hsame.trans hobject) hintact n hsource hflags, rfl, fun body => ?_⟩
  have hshown : source.shownPattern.IsRegexpBody ↔ source.isEmpty = true ∨ source.IsRegexpBody := by
    unfold Text.shownPattern
    split
    · next hempty => exact ⟨fun _ => .inl hempty, fun _ => Text.isRegexpBody_emptyPattern⟩
    · next hempty => exact ⟨.inr, fun h => h.resolve_left hempty⟩
  rw [Text.regexpLiteral?_eq_some_iff, ← hshown]
  constructor
  · rintro ⟨htext, hbody⟩
    have hsame : source.shownPattern = body := by
      have hunits := congrArg Text.units htext
      exact congrArg Text.mk
        (List.append_cancel_left (List.append_cancel_right (List.append_cancel_right hunits)))
    exact ⟨hsame.symm, hsame ▸ hbody⟩
  · rintro ⟨rfl, hbody⟩
    exact ⟨rfl, hbody⟩

/-! ### Slashes in a pattern -/

theorem Heap.RegexpsIntact.grown {m m' : Machine} (hintact : m.heap.RegexpsIntact)
    (h : m.Grown m') : m'.heap.RegexpsIntact := by
  have hobject := h.object hintact.method.live
  have hfunction (f : Ref) (data : FunctionData) (hf : m.heap.kind f = .function data) :
      m'.heap.kind f = .function data := h.function hf
  refine ⟨?_, hintact.method.kept hobject hfunction, hintact.source.kept hobject hfunction,
    hintact.flags.kept hobject hfunction⟩
  rw [hobject]
  exact hintact.proxy

/-- The text of a pattern with a bare slash is no literal with the flags; that of a pattern whose
slashes are escaped or in brackets is. -/
theorem regexp_source_literal_slashes :
    (Session.initialMachine ⟨false, false⟩).heap.RegexpsIntact ∧
    (∃ m₁, Engine.newRegexp "a/b" "g" (Session.initialMachine ⟨false, false⟩) = .ok ⟨74⟩ m₁ ∧
      (engine 4).uneval (.object ⟨74⟩) m₁ = .ok "/a/b/g" m₁ ∧
      ∀ body : Text, Text.regexpLiteral? "/a/b/g" ≠ some (body, Text.ofString "g")) ∧
    ∃ m₁, Engine.newRegexp "[/]\\/" "g" (Session.initialMachine ⟨false, false⟩) = .ok ⟨74⟩ m₁ ∧
      (engine 4).uneval (.object ⟨74⟩) m₁ = .ok "/[/]\\//g" m₁ ∧
      Text.regexpLiteral? "/[/]\\//g" = some (Text.ofString "[/]\\/", Text.ofString "g") := by
  have hdecided : (Session.initialMachine ⟨false, false⟩).heap.objects.size = 74 ∧
      ((Session.initialMachine ⟨false, false⟩).heap.object
        Intrinsic.regexpPrototype.ref).isProxy = false ∧
      (Session.initialMachine ⟨false, false⟩).heap.HoldsNative Intrinsic.regexpPrototype.ref
        "toSource" .regexpToSource ∧
      (Session.initialMachine ⟨false, false⟩).heap.HoldsGetter Intrinsic.regexpPrototype.ref
        "source" .regexpSource ∧
      (Session.initialMachine ⟨false, false⟩).heap.HoldsGetter Intrinsic.regexpPrototype.ref
        "flags" .regexpFlags := by decide +kernel
  -- from here on the realm is not evaluated any more
  generalize Session.initialMachine ⟨false, false⟩ = m at *
  obtain ⟨hsize, hproxy, hmethod, hsource, hflags⟩ := hdecided
  have hintact : m.heap.RegexpsIntact := ⟨hproxy, hmethod, hsource, hflags⟩
  have hplace : (⟨m.size⟩ : Ref) = ⟨74⟩ := congrArg Ref.mk hsize
  have hnew (source : Text) : Engine.newRegexp source "g" m = .ok ⟨74⟩ (m.withHeap
      (m.heap.allocate (.new (some Intrinsic.regexpPrototype.ref) (.regexp source "g"))).2) := by
    rw [← hplace]
    rfl
  have hintact' (o : Object) : (m.withHeap (m.heap.allocate o).2).heap.RegexpsIntact :=
    hintact.grown (.allocate m o)
  refine ⟨hintact, ⟨_, hnew "a/b", ?_⟩, ⟨_, hnew "[/]\\/", ?_⟩⟩
  · obtain ⟨text, huneval, htext, -⟩ :=
      regexp_source_literal (by decide) (hnew "a/b") rfl (hintact' _) 0
    have htext : text = "/a/b/g" := htext.trans (by decide)
    subst htext
    refine ⟨huneval, fun body hbody => ?_⟩
    have hread : Text.regexpLiteral? "/a/b/g" = some (Text.ofString "a", Text.ofString "b/g") := by
      decide
    have hrest : Text.ofString "b/g" = Text.ofString "g" :=
      (Prod.mk.inj (Option.some.inj (hread.symm.trans hbody))).2
    revert hrest
    decide
  · obtain ⟨text, huneval, htext, -⟩ :=
      regexp_source_literal (by decide) (hnew "[/]\\/") rfl (hintact' _) 0
    have htext : text = "/[/]\\//g" := htext.trans (by decide)
    subst htext
    refine ⟨huneval, ?_⟩
    decide

end ObjectModel
