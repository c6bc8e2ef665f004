import ObjectModel.Proofs.Exact
import ObjectModel.Proofs.Rendering
import ObjectModel.Proofs.SourceContext

/-!
# Serialization renders the graph

On plain objects and arrays no hook runs, so serializing a value changes neither the heap nor, in
the end, the context, and its text is the rendering of the value.  The set of composites being
visited is the path of the rendering, and one more unit of fuel serves one more composite on it:
fuel above the number of objects is enough for every graph.
-/

namespace ObjectModel

/-! ## Runs with a known result -/

namespace Run

variable {α β : Type} {h : Heap} {c : SourceContext}

/-- With this heap and this context the run gives `a` and leaves both as they are. -/
def Yields (h : Heap) (c : SourceContext) (x : Run α) (a : α) : Prop :=
  ∀ m : Machine, m.heap = h → m.source = c →
    ∃ m', x m = .ok a m' ∧ m'.heap = h ∧ m'.source = c

namespace Yields

protected theorem pure (a : α) : Yields h c (pure a) a :=
  fun m hheap hsource => ⟨m, rfl, hheap, hsource⟩

protected theorem bind {x : Run α} {f : α → Run β} {a : α} {b : β} (hx : Yields h c x a)
    (hf : Yields h c (f a) b) : Yields h c (x >>= f) b := by
  intro m hheap hsource
  obtain ⟨m₁, hx, hheap₁, hsource₁⟩ := hx m hheap hsource
  obtain ⟨m₂, hf, hheap₂, hsource₂⟩ := hf m₁ hheap₁ hsource₁
  refine ⟨m₂, ?_, hheap₂, hsource₂⟩
  rw [Run.bind_apply, hx]
  exact hf

protected theorem map {x : Run α} {a : α} (hx : Yields h c x a) (f : α → β) :
    Yields h c (x >>= fun a => pure (f a)) (f a) := hx.bind (.pure _)

theorem heap : Yields h c Run.heap h := by
  rintro m rfl rfl
  exact ⟨m, rfl, rfl, rfl⟩

/-- A run that looks at the machine may count on the heap and the context. -/
theorem withMachine {f : Machine → Run β} {b : β}
    (hf : ∀ m : Machine, m.heap = h → m.source = c → Yields h c (f m) b) :
    Yields h c (Run.machine >>= f) b :=
  fun m hheap hsource => hf m hheap hsource m hheap hsource

theorem object (r : Ref) : Yields h c (Run.object r) (h.object r) := by
  rintro m rfl rfl
  exact ⟨m, rfl, rfl, rfl⟩

theorem kind (r : Ref) : Yields h c (Run.kind r) (h.kind r) := by
  rintro m rfl rfl
  exact ⟨m, rfl, rfl, rfl⟩

theorem callable? (v : Value) : Yields h c (Run.callable? v) (h.callable? v) := by
  rintro m rfl rfl
  exact ⟨m, rfl, rfl, rfl⟩

/-- A composite that is being visited gives its placeholder. -/
theorem revisit {r : Ref} (hr : r ∈ c.visiting) (placeholder : Text) (body : Run Text) :
    Yields h c (Engine.visit r placeholder body) placeholder := by
  rintro m rfl rfl
  have hvisiting : m.source.isVisiting r = true := by simpa [SourceContext.isVisiting] using hr
  rw [Engine.visit_apply, if_pos hvisiting]
  exact ⟨_, rfl, rfl, rfl⟩

/-- Any other composite gives what its body gives inside of it. -/
theorem visit {r : Ref} (hr : r ∉ c.visiting) {placeholder t : Text} {body : Run Text}
    (hbody : Yields h (c.enter r) body t) : Yields h c (Engine.visit r placeholder body) t := by
  rintro m rfl rfl
  have hvisiting : ¬ m.source.isVisiting r = true := by simpa [SourceContext.isVisiting] using hr
  obtain ⟨m', hrun, hheap, hsource⟩ := hbody { m with source := m.source.enter r } rfl rfl
  rw [Engine.visit_apply, if_neg hvisiting, hrun]
  refine ⟨_, rfl, hheap, ?_⟩
  show m'.source.leave r = m.source
  rw [hsource]
  exact m.source.leave_enter r

end Yields

end Run

/-! ## Methods of objects that are not proxies -/

namespace Heap

variable {h : Heap} {r : Ref}

theorem root_eq_self (hr : (h.object r).isProxy = false) : h.root r = r := by
  unfold root
  cases h.objects.size with
  | zero => rfl
  | succ n =>
    unfold rootWithin
    split
    · next target traps hkind =>
      have hkind : (h.object r).kind = .proxy target traps := hkind
      simp [Object.isProxy, hkind] at hr
    · rfl

theorem prototypeOf_eq (hr : (h.object r).isProxy = false) :
    h.prototypeOf r = (h.object r).prototype := by
  rw [prototypeOf, root_eq_self hr]

theorem kind_ne_proxy (hr : (h.object r).isProxy = false) (target : Ref) (traps : TrapTable) :
    h.kind r ≠ .proxy target traps := by
  intro hkind
  have hkind : (h.object r).kind = .proxy target traps := hkind
  simp [Object.isProxy, hkind] at hr

theorem callable?_function {data : FunctionData} (hr : h.kind r = .function data) :
    h.callable? (.object r) = some r := by
  have hproxy : (h.object r).isProxy = false := by
    have hkind : (h.object r).kind = .function data := hr
    simp [Object.isProxy, hkind]
  simp [callable?, root_eq_self hproxy, hr]

end Heap

section Methods

open Run

variable {h : Heap} {c : SourceContext} {o : Ref} {k : Key} {n : Nat}

theorem yields_getOwnProperty (ho : (h.object o).isProxy = false) :
    Yields h c ((engine (n + 1)).getOwnProperty o k) ((h.object o).ownDescriptor k) := by
  refine .bind (.kind o) ?_
  split
  · next hkind => exact absurd hkind (Heap.kind_ne_proxy ho _ _)
  · exact .map (.object o) _

theorem yields_ownKeys (ho : (h.object o).isProxy = false) :
    Yields h c ((engine (n + 1)).ownKeys o) (h.object o).ownKeys := by
  refine .bind (.kind o) ?_
  split
  · next hkind => exact absurd hkind (Heap.kind_ne_proxy ho _ _)
  · exact .map (.object o) _

/-- An own data property is read at once. -/
theorem yields_getFor_own (ho : (h.object o).isProxy = false) {d : Descriptor} {v : Value}
    (hd : (h.object o).ownDescriptor k = some d) (hv : d.value = some v) (receiver : Value) :
    Yields h c ((engine (n + 2)).getFor o k receiver) v := by
  refine .bind (.kind o) ?_
  split
  · next hkind => exact absurd hkind (Heap.kind_ne_proxy ho _ _)
  · refine .bind (yields_getOwnProperty ho) ?_
    simp only [hd, hv]
    exact .pure v

/-- A data property of the prototype is read for an object that has none of its own. -/
theorem yields_getFor_inherited (ho : (h.object o).isProxy = false)
    (hnone : (h.object o).ownDescriptor k = none) {p : Ref}
    (hproto : (h.object o).prototype = some p) (hp : (h.object p).isProxy = false)
    {d : Descriptor} {v : Value} (hd : (h.object p).ownDescriptor k = some d)
    (hv : d.value = some v) (receiver : Value) :
    Yields h c ((engine (n + 3)).getFor o k receiver) v := by
  refine .bind (.kind o) ?_
  split
  · next hkind => exact absurd hkind (Heap.kind_ne_proxy ho _ _)
  · refine .bind (yields_getOwnProperty ho) ?_
    simp only [hnone]
    refine .bind .heap ?_
    simp only [Heap.prototypeOf_eq ho, hproto]
    exact yields_getFor_own hp hd hv receiver

/-- A builtin function runs over the engine with one unit of fuel less. -/
theorem yields_call {f : Ref} {data : FunctionData} {g : Native} {receiver a : Value}
    {arguments : List Value} (hf : h.kind f = .function data) (hg : data.behaviour = .native g)
    (hrun : Yields h c ((engine n).runNative g receiver arguments) a) :
    Yields h c ((engine (n + 1)).call (.object f) receiver arguments) a := by
  refine .bind (.callable? _) ?_
  simp only [Heap.callable?_function hf]
  refine .bind (.kind f) ?_
  simp only [hf]
  refine .bind (.kind f) ?_
  simp only [hf, hg]
  exact hrun

end Methods

/-! ## Plain graphs -/

/-- A primitive value other than a symbol, or a composite of the graph. -/
def Value.IsLiteral (S : Ref → Prop) : Value → Prop
  | .symbol _ => False
  | .object r => S r
  | .undefined | .null | .bool _ | .number _ | .text _ => True

namespace Heap

/-- A plain object or an array, with data properties only and no source method of its own.  Its
values are literals of the graph; the length of an array is a word. -/
structure Composite (h : Heap) (S : Ref → Prop) (r : Ref) : Prop where
  shape : ((h.object r).kind = .ordinary ∧
      (h.object r).prototype = some Intrinsic.objectPrototype.ref) ∨
    ∃ length writable, (h.object r).kind = .array length writable ∧ length ≤ Number.maxWord ∧
      (h.object r).prototype = some Intrinsic.arrayPrototype.ref
  values : ∀ k p, (h.object r).properties.find? k = some p →
    ∃ v w, p.content = .data v w ∧ v.IsLiteral S
  hookless : (h.object r).properties.find? "toSource" = none

/-- The builtin function that a value is. -/
def native? (h : Heap) : Value → Option Native
  | .object r =>
    match h.kind r with
    | .function ⟨.native f, _, _⟩ => some f
    | _ => none
  | _ => none

/-- The source method of a prototype is a builtin function. -/
def SourceMethod (h : Heap) (proto : Intrinsic) (f : Native) : Prop :=
  (h.object proto.ref).isProxy = false ∧
    ((h.object proto.ref).data? "toSource").bind h.native? = some f

instance (h : Heap) (proto : Intrinsic) (f : Native) : Decidable (h.SourceMethod proto f) :=
  inferInstanceAs (Decidable (_ ∧ _))

/-- The prototypes of objects and arrays have their builtin source methods. -/
structure SourcesIntact (h : Heap) : Prop where
  object : h.SourceMethod .objectPrototype .objectToSource
  array : h.SourceMethod .arrayPrototype .arrayToSource

end Heap

section Graph

open Run

variable {h : Heap} {S : Ref → Prop} {r : Ref} {c : SourceContext} {n : Nat}

theorem Heap.Composite.isProxy (hr : h.Composite S r) : (h.object r).isProxy = false := by
  rcases hr.shape with ⟨hkind, -⟩ | ⟨length, writable, hkind, -⟩ <;> simp [Object.isProxy, hkind]

theorem Heap.Composite.live (hr : h.Composite S r) : r.index < h.objects.size := by
  rcases Nat.lt_or_ge r.index h.objects.size with hlive | hdead
  · exact hlive
  · have hobject := Heap.object_of_size_le hdead
    have hproto := hr.shape
    rw [hobject] at hproto
    rcases hproto with ⟨-, hproto⟩ | ⟨-, -, -, -, hproto⟩ <;> cases hproto

theorem Heap.native?_eq_some {v : Value} {f : Native} (hv : h.native? v = some f) :
    ∃ g data, v = .object g ∧ h.kind g = .function data ∧ data.behaviour = .native f := by
  cases v with
  | object g =>
    unfold native? at hv
    dsimp only at hv
    split at hv
    · next behaviour name source hkind =>
      cases hv
      exact ⟨g, _, rfl, hkind, rfl⟩
    · cases hv
  | _ => cases hv

theorem Object.data?_eq_some {o : Object} {k : Key} {v : Value} (hv : o.data? k = some v) :
    ∃ w e c, o.properties.find? k = some (.data v w e c) := by
  unfold data? at hv
  split at hv
  · next w e c hfind =>
    cases hv
    exact ⟨w, e, c, hfind⟩
  · cases hv

theorem Heap.SourceMethod.found {proto : Intrinsic} {f : Native}
    (hmethod : h.SourceMethod proto f) :
    (h.object proto.ref).isProxy = false ∧ ∃ g data w e c,
      (h.object proto.ref).properties.find? "toSource" = some (.data (.object g) w e c) ∧
        h.kind g = .function data ∧ data.behaviour = .native f := by
  obtain ⟨hproxy, hbind⟩ := hmethod
  obtain ⟨v, hdata, hnative⟩ := Option.bind_eq_some_iff.1 hbind
  obtain ⟨g, data, rfl, hkind, hbehaviour⟩ := Heap.native?_eq_some hnative
  obtain ⟨w, e, c, hfind⟩ := Object.data?_eq_some hdata
  exact ⟨hproxy, g, data, w, e, c, hfind, hkind, hbehaviour⟩

/-- The source method that a composite inherits decides its text. -/
theorem yields_uneval_composite (hr : h.Composite S r) {proto : Intrinsic} {f : Native}
    (hproto : (h.object r).prototype = some proto.ref) (hmethod : h.SourceMethod proto f) {t : Text}
    (ht : t.Ascii) (hrun : Yields h c ((engine (n + 2)).runNative f (.object r) []) (.text t)) :
    Yields h c ((engine (n + 3)).uneval (.object r)) t := by
  have hlength : ("toSource" : Key) ≠ .length := by decide
  obtain ⟨hp, g, data, w, e, cfg, hfind, hkind, hnative⟩ := hmethod.found
  have hnone : (h.object r).ownDescriptor "toSource" = none := by
    rw [Object.ownDescriptor_eq fun _ => hlength, hr.hookless]
    rfl
  have hsome : (h.object proto.ref).ownDescriptor "toSource" =
      some (Property.data (.object g) w e cfg).toDescriptor := by
    rw [Object.ownDescriptor_eq fun _ => hlength, hfind]
    rfl
  refine .bind (.bind (.pure r) (yields_getFor_inherited hr.isProxy hnone hproto hp hsome rfl _)) ?_
  refine .bind (.callable? _) ?_
  simp only [Heap.callable?_function hkind]
  refine .bind (yields_call hkind hnative hrun) ?_
  have htext : Yields h c ((engine (n + 3)).toText (.text t)) t := .bind (.pure _) (.pure t)
  have := htext.map Text.lossy
  rwa [ht.lossy_eq] at this

/-- A composite on the path gives its placeholder, any other what its body gives inside of it. -/
theorem yields_visit {path : List Ref} (hr : h.Composite S r) {placeholder : Text}
    (hplaceholder : (h.object r).placeholder = placeholder) {body : Run Text}
    (hbody : r ∉ path → Yields h ⟨r :: path, path.length + 1⟩ body
      ((h.object r).literal path.isEmpty (h.render (r :: path)))) :
    Yields h ⟨path, path.length⟩ (Engine.visit r placeholder body) (h.render path (.object r)) := by
  by_cases hvisited : r ∈ path
  · rw [Heap.render_onPath hvisited, hplaceholder]
    exact .revisit hvisited _ _
  · rw [Heap.render_offPath hvisited hr.live]
    exact .visit hvisited (hbody hvisited)

/-! ### Objects -/

theorem yields_keepEnumerable (ho : (h.object r).isProxy = false) (ks : List Key) :
    Yields h c ((engine (n + 1)).keepEnumerable r ks)
      (ks.filter fun k => ((h.object r).ownDescriptor k).any Descriptor.isEnumerable) := by
  induction ks with
  | nil => exact .pure _
  | cons k rest ih =>
    refine .bind (.map (yields_getOwnProperty ho) _) (.bind ih ?_)
    rw [List.filter_cons]
    exact .pure _

/-- The text of an own property, if there is one. -/
def Heap.entryText (h : Heap) (path : List Ref) (r : Ref) (k : Key) : Option Text :=
  ((h.object r).data? k).map fun v => k.literalName ++ Text.ofString ":" ++ h.render path v

theorem yields_propertySource (hr : h.Composite S r) (harray : (h.object r).isArray = false)
    {path : List Ref}
    (ih : ∀ v : Value, v.IsLiteral S → Yields h c ((engine (n + 1)).uneval v) (h.render path v))
    (k : Key) :
    Yields h c ((engine (n + 1)).propertySource r k) (h.entryText path r k) := by
  refine .bind (yields_getOwnProperty hr.isProxy) ?_
  rw [Object.ownDescriptor_eq (by simp [harray])]
  cases hfind : (h.object r).properties.find? k with
  | none =>
    have hnone : h.entryText path r k = none := by simp [Heap.entryText, Object.data?, hfind]
    rw [hnone]
    exact .pure none
  | some p =>
    obtain ⟨v, w, hcontent, hv⟩ := hr.values k p hfind
    obtain ⟨content, e, cfg⟩ := p
    cases hcontent
    have hsome : h.entryText path r k =
        some (k.literalName ++ Text.ofString ":" ++ h.render path v) := by
      simp [Heap.entryText, Object.data?, hfind]
    rw [hsome]
    exact .map (ih v hv) fun t => some (k.literalName ++ Text.ofString ":" ++ t)

theorem yields_propertySources {entry : Key → Option Text}
    (hentry : ∀ k, Yields h c ((engine n).propertySource r k) (entry k)) (ks : List Key) :
    Yields h c ((engine n).propertySources r ks) (ks.filterMap entry) := by
  induction ks with
  | nil => exact .pure _
  | cons k rest ih =>
    have hcons : (k :: rest).filterMap entry = (entry k).toList ++ rest.filterMap entry := by
      cases hk : entry k <;> simp [hk]
    rw [hcons]
    exact .bind (hentry k) (.map ih _)

/-- The entries of an object's literal are the texts of its enumerable names. -/
theorem Heap.entryTexts_eq (h : Heap) (path : List Ref) (r : Ref)
    (harray : (h.object r).isArray = false) :
    (((h.object r).ownKeys.filter fun k => !k.isSymbol).filter fun k =>
        ((h.object r).ownDescriptor k).any Descriptor.isEnumerable).filterMap
          (h.entryText path r) =
      ((h.object r).namedValues.map fun e => (e.1, h.render path e.2)).map
        fun e => e.1.literalName ++ Text.ofString ":" ++ e.2 := by
  have hlisted : (fun k : Key =>
      ((h.object r).ownDescriptor k).any Descriptor.isEnumerable && !k.isSymbol) = fun k =>
        !k.isSymbol && ((h.object r).properties.find? k).any fun p => p.enumerable := by
    funext k
    rw [Object.ownDescriptor_eq (by simp [harray]), Bool.and_comm]
    congr 1
    cases (h.object r).properties.find? k with
    | none => rfl
    | some p =>
      obtain ⟨content, e, cfg⟩ := p
      cases content <;> cases e <;> rfl
  unfold Object.namedValues
  rw [List.filter_filter, hlisted, List.map_filterMap, List.map_filterMap]
  refine congrArg (List.filterMap · _) (funext fun k => ?_)
  simp [Heap.entryText, Function.comp_def]

theorem yields_objectSource (hr : h.Composite S r) (hkind : (h.object r).kind = .ordinary)
    {path : List Ref} (ih : r ∉ path → ∀ v : Value, v.IsLiteral S →
      Yields h ⟨r :: path, path.length + 1⟩ ((engine (n + 1)).uneval v) (h.render (r :: path) v)) :
    Yields h ⟨path, path.length⟩ ((engine (n + 1)).objectSource r) (h.render path (.object r)) := by
  have harray : (h.object r).isArray = false := by simp [Object.isArray, hkind]
  have hliteral : (h.object r).literal path.isEmpty (h.render (r :: path)) =
      objectLiteral path.isEmpty
        ((h.object r).namedValues.map fun e => (e.1, h.render (r :: path) e.2)) := by
    simp [Object.literal, hkind]
  refine yields_visit hr (by simp [Object.placeholder, harray]) fun hfresh => ?_
  rw [hliteral]
  refine .withMachine fun m _ hsource => ?_
  have hdepth : m.source.depth = path.length + 1 := by rw [hsource]
  refine .bind (.bind (yields_ownKeys hr.isProxy) (yields_keepEnumerable hr.isProxy _)) ?_
  refine .bind (yields_propertySources (yields_propertySource hr harray (ih hfresh)) _) ?_
  rw [Heap.entryTexts_eq h _ r harray, hdepth]
  cases path with
  | nil => exact .pure _
  | cons parent rest =>
    have hinside : 1 < (parent :: rest).length + 1 := by simp
    dsimp only
    rw [if_pos hinside]
    exact .pure _

/-! ### Arrays -/

/-- An element or a hole of an array's literal, and what stands before the next. -/
def literalPiece (last : Bool) : Option Text → List Text
  | some t => if last then [t] else [t, Text.ofString ", "]
  | none => [if last then Text.ofString "," else Text.ofString ", "]

def literalPieces : List (Option Text) → List Text
  | [] => []
  | item :: rest => literalPiece rest.isEmpty item ++ literalPieces rest

theorem concat_literalPieces (items : List (Option Text)) :
    Text.concat (literalPieces items) =
      Text.join ", " (items.map fun item => item.getD .empty) ++
        (if items.getLast? = some none then Text.ofString "," else .empty) := by
  induction items with
  | nil => rfl
  | cons item rest ih =>
    cases rest with
    | nil => cases item <;> simp [literalPieces, literalPiece, Text.concat, Text.join]
    | cons next rest =>
      have hlast : (item :: next :: rest).getLast? = (next :: rest).getLast? := by simp
      have hjoin : Text.join ", " ((item :: next :: rest).map fun item => item.getD .empty) =
          item.getD .empty ++ (Text.ofString ", " ++
            Text.join ", " ((next :: rest).map fun item => item.getD .empty)) := rfl
      have hpieces : Text.concat (literalPieces (item :: next :: rest)) =
          item.getD .empty ++ (Text.ofString ", " ++
            Text.concat (literalPieces (next :: rest))) := by
        cases item <;> rfl
      rw [hlast, hjoin, hpieces, ih]
      simp only [Text.append_assoc]

/-- The text of the element at a position; a hole has none. -/
def Heap.elementText (h : Heap) (path : List Ref) (r : Ref) (i : Nat) : Option Text :=
  ((h.object r).data? (.index i)).map (h.render path)

theorem yields_hasOwnProperty (ho : (h.object r).isProxy = false) (k : Key) :
    Yields h c ((engine (n + 1)).hasOwnProperty r k) ((h.object r).ownDescriptor k).isSome := by
  have hproxy : Yields h c ((engine (n + 1)).proxyHasOwn? r k) none := by
    refine .bind (.kind r) ?_
    split
    · next hkind => exact absurd hkind (Heap.kind_ne_proxy ho _ _)
    · exact .pure none
  exact .bind hproxy (.map (yields_getOwnProperty ho) _)

theorem yields_elementSources (hr : h.Composite S r) {path : List Ref}
    (ih : ∀ v : Value, v.IsLiteral S → Yields h c ((engine (n + 2)).uneval v) (h.render path v))
    (count start : Nat) (hlimit : start + count ≤ Number.maxWord) :
    Yields h c ((engine (n + 2)).elementSources r count start)
      (literalPieces ((List.range' start count).map (h.elementText path r))) := by
  induction count generalizing start with
  | zero => exact .pure []
  | succ count ihcount =>
    have hkey : Key.ofPosition start = .index start := by
      rw [Key.ofPosition, Nat.mod_eq_of_lt (by omega)]
    have hown : (h.object r).ownDescriptor (.index start) =
        ((h.object r).properties.find? (.index start)).map Property.toDescriptor :=
      Object.ownDescriptor_eq fun _ hindex => Key.length_ne_index start hindex.symm
    have hlast : (List.map (h.elementText path r) (List.range' (start + 1) count)).isEmpty =
        decide (count = 0) := by
      cases count <;> simp
    have hrest := ihcount (start + 1) (by omega)
    rw [List.range'_succ, List.map_cons, literalPieces, hlast]
    simp only [Engine.elementSources]
    rw [hkey]
    refine .bind (yields_hasOwnProperty hr.isProxy _) ?_
    rw [hown]
    cases hfind : (h.object r).properties.find? (.index start) with
    | none =>
      have htext : h.elementText path r start = none := by
        simp [Heap.elementText, Object.data?, hfind]
      have hpiece : literalPiece (decide (count = 0)) none =
          [if count = 0 then Text.ofString "," else Text.ofString ", "] := by simp [literalPiece]
      rw [htext, hpiece]
      exact .bind (.pure _) (.map hrest _)
    | some p =>
      obtain ⟨v, w, hcontent, hv⟩ := hr.values _ p hfind
      obtain ⟨content, e, cfg⟩ := p
      cases hcontent
      have htext : h.elementText path r start = some (h.render path v) := by
        simp [Heap.elementText, Object.data?, hfind]
      have hpiece (t : Text) : literalPiece (decide (count = 0)) (some t) =
          if count = 0 then [t] else [t, Text.ofString ", "] := by simp [literalPiece]
      rw [hfind] at hown
      rw [htext, hpiece]
      refine .bind (yields_getFor_own hr.isProxy hown rfl _) ?_
      exact .bind (ih v hv) (.bind (.pure _) (.map hrest _))

theorem yields_arraySource (hr : h.Composite S r) {length : Nat} {writable : Bool}
    (hkind : (h.object r).kind = .array length writable) (hlength : length ≤ Number.maxWord)
    {path : List Ref} (ih : r ∉ path → ∀ v : Value, v.IsLiteral S →
      Yields h ⟨r :: path, path.length + 1⟩ ((engine (n + 2)).uneval v) (h.render (r :: path) v)) :
    Yields h ⟨path, path.length⟩ ((engine (n + 2)).arraySource r) (h.render path (.object r)) := by
  have hliteral : (h.object r).literal path.isEmpty (h.render (r :: path)) =
      Text.ofString "[" ++ Text.concat (literalPieces
        ((List.range' 0 length).map (h.elementText (r :: path) r)) ++ [Text.ofString "]"]) := by
    rw [Text.concat_append, concat_literalPieces, ← List.range_eq_range']
    simp only [Object.literal, hkind, arrayLiteral, Text.append_assoc, Text.concat,
      Text.append_empty]
    rfl
  have hown := Object.ownDescriptor_length hkind
  have hlimit : length ≤ Engine.lengthLimit := Nat.le_trans hlength (by decide)
  have htoLength {c : SourceContext} :
      Yields h c ((engine (n + 2)).toLength (.ofNat length)) length := fun m hheap hsource =>
    ⟨m, Engine.toLength_ofNat _ hlimit m, hheap, hsource⟩
  have hplaceholder : (h.object r).placeholder = Text.ofString "[]" := by
    simp [Object.placeholder, Object.isArray, hkind]
  refine yields_visit hr hplaceholder fun hfresh => ?_
  rw [hliteral]
  refine .bind (.bind (yields_getFor_own hr.isProxy hown rfl _) htoLength) ?_
  exact .map (yields_elementSources hr (ih hfresh) length 0 (by omega)) _

/-! ## Values -/

/-- **Serialization gives the rendering.**  The visited composites are the path; each composite
that is entered takes one place off the measure and one unit of fuel. -/
theorem yields_uneval (hS : ∀ r, S r → h.Composite S r) (hsources : h.SourcesIntact)
    {path : List Ref} {v : Value} (hn : h.unvisited path + 3 ≤ n) (hv : v.IsLiteral S) :
    Yields h ⟨path, path.length⟩ ((engine n).uneval v) (h.render path v) := by
  induction n generalizing path v with
  | zero => omega
  | succ n ih =>
    obtain ⟨k, rfl⟩ : ∃ k, n = k + 2 := ⟨n - 2, by omega⟩
    cases v with
    | object r =>
      have hr := hS r hv
      have hascii := h.ascii_render path (.object r)
      -- inside of `r` one place less is unvisited
      have hinner (hfresh : r ∉ path) (v : Value) (hv : v.IsLiteral S) :
          Yields h ⟨r :: path, path.length + 1⟩ ((engine (k + 2)).uneval v)
            (h.render (r :: path) v) := by
        have := Heap.unvisited_cons hfresh hr.live
        exact ih (by omega) hv
      rcases hr.shape with ⟨hkind, hproto⟩ | ⟨length, writable, hkind, hlength, hproto⟩
      · refine yields_uneval_composite hr hproto hsources.object hascii ?_
        exact .bind (.pure r) ((yields_objectSource hr hkind hinner).map Value.text)
      · refine yields_uneval_composite hr hproto hsources.array hascii ?_
        have harray : h.isArray (.object r) = true := by
          have hkind : h.kind r = .array length writable := hkind
          simp [Heap.isArray, Heap.root_eq_self hr.isProxy, hkind]
        refine .bind (.pure r) (.bind .heap ?_)
        rw [if_pos harray]
        exact (yields_arraySource hr hkind hlength hinner).map Value.text
    | symbol s => exact hv.elim
    | undefined | null | bool b | number x | text t =>
      rw [Heap.render]
      exact .pure _

end Graph

/-- A realm with the extensions starts with its builtin source methods. -/
theorem sourcesIntact_initialMachine {options : Options} (h : options.withoutExtensions = false) :
    (Session.initialMachine options).heap.SourcesIntact := by
  obtain ⟨withoutExtensions, printInternals⟩ := options
  cases h
  cases printInternals <;> exact ⟨by decide +kernel, by decide +kernel⟩

/-! ### A graph with a cycle -/

/-- The machine with two more composites: an object that holds itself once and an array twice, and
the array, which holds the object and has a hole. -/
def Machine.withCycle (m : Machine) : Machine :=
  let object : Object :=
    { Object.new (some Intrinsic.objectPrototype.ref) .ordinary with
      properties := Engine.plainTable
        [("self", .object ⟨m.size⟩), ("x y", .object ⟨m.size + 1⟩), ("z", .object ⟨m.size + 1⟩)] }
  let array : Object :=
    { Object.new (some Intrinsic.arrayPrototype.ref) (.array 3 true) with
      properties := Engine.plainTable [(.index 0, .object ⟨m.size⟩), (.index 2, .text "q")] }
  m.withHeap ((m.heap.allocate object).2.allocate array).2

theorem Machine.source_withCycle (m : Machine) : m.withCycle.source = m.source := rfl

theorem Machine.composite_withCycle (m : Machine) {r : Ref}
    (hr : r = ⟨m.size⟩ ∨ r = ⟨m.size + 1⟩) :
    m.withCycle.heap.Composite (fun r => r = ⟨m.size⟩ ∨ r = ⟨m.size + 1⟩) r := by
  have hobject : m.withCycle.heap.object ⟨m.size⟩ =
      { Object.new (some Intrinsic.objectPrototype.ref) .ordinary with
        properties := Engine.plainTable
          [("self", .object ⟨m.size⟩), ("x y", .object ⟨m.size + 1⟩),
            ("z", .object ⟨m.size + 1⟩)] } := by
    simp [withCycle, Heap.object_allocate, size]
  have harray : m.withCycle.heap.object ⟨m.size + 1⟩ =
      { Object.new (some Intrinsic.arrayPrototype.ref) (.array 3 true) with
        properties :=
          Engine.plainTable [(.index 0, .object ⟨m.size⟩), (.index 2, .text "q")] } := by
    simp [withCycle, Heap.object_allocate, size]
  rcases hr with rfl | rfl
  · refine ⟨.inl ?_, fun k p hp => ?_, ?_⟩
    · simp [hobject, Object.new]
    · rw [hobject] at hp
      obtain ⟨v, hmem, rfl⟩ := find?_plainTable hp
      refine ⟨v, true, rfl, ?_⟩
      simp only [List.mem_cons, Prod.mk.injEq, List.not_mem_nil, or_false] at hmem
      rcases hmem with ⟨-, rfl⟩ | ⟨-, rfl⟩ | ⟨-, rfl⟩
      · exact .inl rfl
      · exact .inr rfl
      · exact .inr rfl
    · rw [hobject, Option.eq_none_iff_forall_ne_some]
      intro p hp
      obtain ⟨v, hmem, -⟩ := find?_plainTable hp
      have hkeys := List.mem_map_of_mem (f := Prod.fst) hmem
      exact absurd hkeys (by simp; decide)
  · refine ⟨.inr ⟨3, true, ?_, by decide, ?_⟩, fun k p hp => ?_, ?_⟩
    · simp [harray, Object.new]
    · simp [harray, Object.new]
    · rw [harray] at hp
      obtain ⟨v, hmem, rfl⟩ := find?_plainTable hp
      refine ⟨v, true, rfl, ?_⟩
      simp only [List.mem_cons, Prod.mk.injEq, List.not_mem_nil, or_false] at hmem
      rcases hmem with ⟨-, rfl⟩ | ⟨-, rfl⟩
      · exact .inl rfl
      · trivial
    · rw [harray, Option.eq_none_iff_forall_ne_some]
      intro p hp
      obtain ⟨v, hmem, -⟩ := find?_plainTable hp
      have hkeys := List.mem_map_of_mem (f := Prod.fst) hmem
      exact absurd hkeys (by simp; decide)

/-- **The source text of a plain graph is its rendering.**  A realm with the extensions starts
with its builtin source methods.  In every machine where the prototypes of objects and arrays have
theirs, and the context is idle, serializing a literal of a graph of plain objects and arrays
gives its rendering from the empty path, and leaves the heap and the context as they were. -/
theorem uneval_eq_render :
    (∀ options : Options, options.withoutExtensions = false →
      (Session.initialMachine options).heap.SourcesIntact) ∧
    ∀ (m : Machine) (S : Ref → Prop) (v : Value), (∀ r, S r → m.heap.Composite S r) →
      m.heap.SourcesIntact → m.source = .idle → v.IsLiteral S →
        ∀ n, m.size + 3 ≤ n → ∃ m', (engine n).uneval v m = .ok (m.heap.render [] v) m' ∧
          m'.heap = m.heap ∧ m'.source = m.source := by
  refine ⟨fun _ => sourcesIntact_initialMachine, fun m S v hS hsources hidle hv n hn => ?_⟩
  have hfuel : m.heap.unvisited [] + 3 ≤ n := by
    have := m.heap.unvisited_le []
    unfold Machine.size at hn
    omega
  obtain ⟨m', hrun, hheap, hsource⟩ := yields_uneval hS hsources hfuel hv m rfl hidle
  exact ⟨m', hrun, hheap, hsource.trans hidle.symm⟩

/-- The text of a run, if it gives one. -/
def Run.text? (result : EStateM.Result Halt Machine Text) : Option Text :=
  match result with
  | .ok t _ => some t
  | .error _ _ => none

/-- In that graph the object is cut inside itself and the array is repeated. -/
theorem uneval_withCycle :
    (Session.initialMachine ⟨false, false⟩).withCycle.heap.SourcesIntact ∧
      (Session.initialMachine ⟨false, false⟩).withCycle.source = .idle ∧
      ∃ t m', Session.root.uneval (.object ⟨(Session.initialMachine ⟨false, false⟩).size⟩)
          (Session.initialMachine ⟨false, false⟩).withCycle = .ok t m' ∧
        t = (Session.initialMachine ⟨false, false⟩).withCycle.heap.render []
          (.object ⟨(Session.initialMachine ⟨false, false⟩).size⟩) ∧
        t = Text.ofString
          "(\x7bself:\x7b\x7d, 'x y':[\x7b\x7d, , \"q\"], z:[\x7b\x7d, , \"q\"]\x7d)" := by
  have hsources : (Session.initialMachine ⟨false, false⟩).withCycle.heap.SourcesIntact :=
    ⟨by decide +kernel, by decide +kernel⟩
  have hidle : (Session.initialMachine ⟨false, false⟩).withCycle.source = .idle :=
    (Machine.source_withCycle _).trans (source_initialMachine _)
  have hfuel : (Session.initialMachine ⟨false, false⟩).withCycle.size + 3 ≤ Session.fuel := by
    decide +kernel
  have htext : Run.text? (Session.root.uneval
      (.object ⟨(Session.initialMachine ⟨false, false⟩).size⟩)
        (Session.initialMachine ⟨false, false⟩).withCycle) =
      some (Text.ofString
        "(\x7bself:\x7b\x7d, 'x y':[\x7b\x7d, , \"q\"], z:[\x7b\x7d, , \"q\"]\x7d)") := by
    decide +kernel
  -- from here on the machine is not evaluated any more
  generalize Session.initialMachine ⟨false, false⟩ = m at hsources hidle hfuel htext ⊢
  obtain ⟨m', hrun, -⟩ := uneval_eq_render.2 m.withCycle
    (fun r => r = ⟨m.size⟩ ∨ r = ⟨m.size + 1⟩) (.object ⟨m.size⟩)
    (fun _ => m.composite_withCycle) hsources hidle (.inl rfl) Session.fuel hfuel
  refine ⟨hsources, hidle, _, m', hrun, rfl, ?_⟩
  have hrun : Session.root.uneval (.object ⟨m.size⟩) m.withCycle = _ := hrun
  rw [hrun] at htext
  exact Option.some.inj htext

end ObjectModel
