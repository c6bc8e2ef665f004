import ObjectModel.Engine.Source
import ObjectModel.Proofs.Ascii
import ObjectModel.Proofs.Change

/-!
# The text of a graph of objects

`Heap.render` gives the source text of a value as a function of the heap and of the path of
composites that leads to it.  A composite on the path is an empty literal; any other is written
out each time it is met.  The path only grows by places that are not on it, so rendering ends on
every graph, however it is tied together.
-/

namespace ObjectModel

/-! ## Texts put together -/

namespace Text

@[simp]
theorem empty_append (t : Text) : empty ++ t = t := rfl

@[simp]
theorem append_empty (t : Text) : t ++ empty = t := congrArg Text.mk (List.append_nil t.units)

theorem append_assoc (s t u : Text) : s ++ t ++ u = s ++ (t ++ u) :=
  congrArg Text.mk (List.append_assoc s.units t.units u.units)

theorem concat_append (ss ts : List Text) : concat (ss ++ ts) = concat ss ++ concat ts := by
  induction ss with
  | nil => rfl
  | cons s ss ih =>
    show s ++ concat (ss ++ ts) = s ++ concat ss ++ concat ts
    rw [ih, append_assoc]

end Text

/-! ## Literals -/

/-- The literal of an object from its names and the texts of their values. -/
def objectLiteral (outermost : Bool) (entries : List (Key × Text)) : Text :=
  let body := Text.join ", " (entries.map fun e => e.1.literalName ++ Text.ofString ":" ++ e.2)
  if outermost then Text.concat ["(\x7b", body, "\x7d)"] else Text.concat ["\x7b", body, "\x7d"]

/-- The literal of an array from the texts of its elements; a hole has none.  A hole at the end
needs a comma of its own. -/
def arrayLiteral (items : List (Option Text)) : Text :=
  Text.ofString "[" ++ Text.join ", " (items.map fun item => item.getD .empty)
    ++ (if items.getLast? = some none then Text.ofString "," else .empty) ++ Text.ofString "]"

namespace Object

/-- The value of an own data property. -/
def data? (o : Object) (k : Key) : Option Value :=
  match o.properties.find? k with
  | some ⟨.data v _, _, _⟩ => some v
  | _ => none

/-- The enumerable own data properties under names, in the order of the own keys. -/
def namedValues (o : Object) : List (Key × Value) :=
  (o.ownKeys.filter fun k =>
      !k.isSymbol && (o.properties.find? k).any fun p => p.enumerable).filterMap
    fun k => (o.data? k).map fun v => (k, v)

/-- The literal of an object whose values are written by `write`. -/
def literal (o : Object) (outermost : Bool) (write : Value → Text) : Text :=
  match o.kind with
  | .array length _ =>
    arrayLiteral ((List.range length).map fun i => (o.data? (.index i)).map write)
  | _ => objectLiteral outermost (o.namedValues.map fun e => (e.1, write e.2))

/-- What stands for a composite inside itself. -/
def placeholder (o : Object) : Text := if o.isArray then "[]" else "\x7b\x7d"

end Object

/-! ## Rendering -/

namespace Heap

/-- The places that are not on a path. -/
def offPath (h : Heap) (path : List Ref) : List Nat :=
  (List.range h.objects.size).filter fun i => !path.contains ⟨i⟩

/-- The number of places that are not on a path. -/
def unvisited (h : Heap) (path : List Ref) : Nat := (h.offPath path).length

theorem unvisited_le (h : Heap) (path : List Ref) : h.unvisited path ≤ h.objects.size := by
  have hle := List.length_filter_le (fun i => !path.contains ⟨i⟩) (List.range h.objects.size)
  rwa [List.length_range] at hle

theorem unvisited_cons {h : Heap} {path : List Ref} {r : Ref} (hr : r ∉ path)
    (hlive : r.index < h.objects.size) : h.unvisited (r :: path) < h.unvisited path := by
  have hcons : h.offPath (r :: path) = (h.offPath path).filter fun i => i != r.index := by
    unfold offPath
    rw [List.filter_filter]
    refine List.filter_congr fun i _ => ?_
    rw [List.contains_cons, Bool.not_or]
    congr 1
    cases r
    simp [bne, BEq.beq]
  have hmem : r.index ∈ h.offPath path := by
    refine List.mem_filter.2 ⟨List.mem_range.2 hlive, ?_⟩
    simpa using hr
  unfold unvisited
  rw [hcons, List.length_filter_lt_length_iff_exists]
  exact ⟨r.index, hmem, by simp⟩

/-- The source text of a value at the end of a path of composites. -/
def render (h : Heap) (path : List Ref) (v : Value) : Text :=
  match v with
  | .undefined => "(void 0)"
  | .null => "null"
  | .bool b => if b then "true" else "false"
  | .number n => n.toText
  | .text t => t.quote
  | .symbol _ => .empty
  | .object r =>
    if _hr : r ∉ path ∧ r.index < h.objects.size then
      (h.object r).literal path.isEmpty fun v => h.render (r :: path) v
    else (h.object r).placeholder
termination_by h.unvisited path
decreasing_by exact unvisited_cons _hr.1 _hr.2

variable {h : Heap} {path : List Ref} {r : Ref}

/-- A composite on the path is cut. -/
theorem render_onPath (hr : r ∈ path) :
    h.render path (.object r) = (h.object r).placeholder := by
  rw [render, dif_neg (fun hfresh => hfresh.1 hr)]

/-- A composite that is not on the path is written out. -/
theorem render_offPath (hr : r ∉ path) (hlive : r.index < h.objects.size) :
    h.render path (.object r) = (h.object r).literal path.isEmpty (h.render (r :: path)) := by
  rw [render, dif_pos ⟨hr, hlive⟩]

end Heap

/-! ## Rendered texts are ASCII -/

theorem ascii_objectLiteral {outermost : Bool} {entries : List (Key × Text)}
    (h : ∀ e ∈ entries, e.2.Ascii) : (objectLiteral outermost entries).Ascii := by
  have hbody : (Text.join ", "
      (entries.map fun e => e.1.literalName ++ Text.ofString ":" ++ e.2)).Ascii := by
    refine Text.ascii_join (Text.ascii_ofString (by decide)) fun t ht => ?_
    obtain ⟨e, he, rfl⟩ := List.mem_map.1 ht
    exact ((Key.ascii_literalName _).append (Text.ascii_ofString (by decide))).append (h e he)
  have hconcat {s t : Text} (hs : s.Ascii) (ht : t.Ascii) : (Text.concat [s, _, t]).Ascii :=
    hs.append (hbody.append (ht.append Text.ascii_empty))
  unfold objectLiteral
  cases outermost with
  | true => exact hconcat (Text.ascii_ofString (by decide)) (Text.ascii_ofString (by decide))
  | false => exact hconcat (Text.ascii_ofString (by decide)) (Text.ascii_ofString (by decide))

theorem ascii_arrayLiteral {items : List (Option Text)} (h : ∀ t, some t ∈ items → t.Ascii) :
    (arrayLiteral items).Ascii := by
  have hbody : (Text.join ", " (items.map fun item => item.getD .empty)).Ascii := by
    refine Text.ascii_join (Text.ascii_ofString (by decide)) fun t ht => ?_
    obtain ⟨item, hitem, rfl⟩ := List.mem_map.1 ht
    cases item with
    | none => exact Text.ascii_empty
    | some t => exact h t hitem
  have htail : (if items.getLast? = some none then Text.ofString "," else .empty).Ascii := by
    split
    · exact Text.ascii_ofString (by decide)
    · exact Text.ascii_empty
  exact (((Text.ascii_ofString (by decide)).append hbody).append htail).append
    (Text.ascii_ofString (by decide))

theorem Object.ascii_literal {o : Object} {outermost : Bool} {write : Value → Text}
    (h : ∀ v, (write v).Ascii) : (o.literal outermost write).Ascii := by
  unfold literal
  split
  · refine ascii_arrayLiteral fun t ht => ?_
    obtain ⟨i, -, hi⟩ := List.mem_map.1 ht
    obtain ⟨v, -, rfl⟩ := Option.map_eq_some_iff.1 hi
    exact h v
  · refine ascii_objectLiteral fun e he => ?_
    obtain ⟨e', -, rfl⟩ := List.mem_map.1 he
    exact h _

theorem Object.ascii_placeholder (o : Object) : o.placeholder.Ascii := by
  unfold placeholder
  split <;> exact Text.ascii_ofString (by decide)

theorem Heap.ascii_render (h : Heap) (path : List Ref) (v : Value) :
    (h.render path v).Ascii := by
  fun_induction Heap.render h path v with
  | case1 | case2 | case3 | case4 => exact Text.ascii_ofString (by decide)
  | case5 path n => exact n.ascii_toText
  | case6 path t => exact Text.ascii_quoteWith (by decide) t
  | case7 => exact Text.ascii_empty
  | case8 path r hr ih => exact Object.ascii_literal ih
  | case9 path r hr => exact Object.ascii_placeholder _

end ObjectModel
