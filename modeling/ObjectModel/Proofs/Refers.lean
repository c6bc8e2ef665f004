import ObjectModel.Engine.Basic

/-!
# References inside data

Objects are known by their places in the heap, and places travel in values, descriptors, property
tables, functions, expressions and methods.  `refers a r` says that the place `r` occurs in `a`.

What a run may refer to is the subject of `ObjectModel.Proofs.Discipline`; here is only what each
kind of data holds.  Symbols and the numbers of shown objects are not references.  Nor is the target
of a proxy with a handler, which the proxy never hands out (`Kind.hidden?`).
-/

namespace ObjectModel

/-- Data in which places of objects can occur. -/
class HasRefs (α : Type) where
  refers : α → Ref → Prop

export HasRefs (refers)

namespace HasRefs

/-- Data without places. -/
@[reducible] def none (α : Type) : HasRefs α := ⟨fun _ _ => False⟩

instance : HasRefs Unit := none _
instance : HasRefs Nat := none _
instance : HasRefs String := none _
instance : HasRefs Key := none _
instance : HasRefs Trap := none _
instance : HasRefs HandlerOperation := none _

variable {α β : Type}

instance : HasRefs Ref := ⟨fun a r => a = r⟩

instance [HasRefs α] : HasRefs (Option α) := ⟨fun o r => ∃ a, o = some a ∧ refers a r⟩

instance [HasRefs α] : HasRefs (List α) := ⟨fun l r => ∃ a ∈ l, refers a r⟩

instance [HasRefs α] : HasRefs (Array α) := ⟨fun l r => refers l.toList r⟩

instance [HasRefs α] [HasRefs β] : HasRefs (α × β) := ⟨fun p r => refers p.1 r ∨ refers p.2 r⟩

instance : HasRefs Value := ⟨fun v r => v = .object r⟩

/-! ## Properties and objects -/

instance : HasRefs Descriptor :=
  ⟨fun d r => refers d.value r ∨ refers d.get r ∨ refers d.set r⟩

instance : HasRefs Content :=
  ⟨fun c r => match c with
    | .data v _ => refers v r
    | .accessor g s => refers g r ∨ refers s r⟩

instance : HasRefs Property := ⟨fun p r => refers p.content r⟩

instance [Ord α] [HasRefs α] [HasRefs β] : HasRefs (Slots α β) := ⟨fun s r => refers s.entries r⟩

instance : HasRefs IterationSource :=
  ⟨fun s r => match s with
    | .list vs => refers vs r
    | .arrayValues a | .arrayEntries a _ => refers a r
    | .objectKeys o _ | .objectEntries o _ => refers o r
    | .mapEntries m => refers m r
    | .setValues s => refers s r
    | .arrayKeys _ | .codeUnits _ => False⟩

instance : HasRefs Element :=
  ⟨fun e r => match e with
    | .finished | .hole => False
    | .value v => refers v r
    | .live array | .arrayEntry array => refers array r
    | .ownKey object _ _ => refers object r
    | .pair k v => refers k r ∨ refers v r⟩

end HasRefs

/-- The expression holds the place as a literal. -/
inductive Expr.RefersTo (r : Ref) : Expr → Prop where
  | value {v : Value} (h : refers v r) : Expr.RefersTo r (.value v)
  | item {e : Expr} {items : List Expr} (he : e ∈ items) (h : Expr.RefersTo r e) :
      Expr.RefersTo r (.array items)
  | operand {e : Expr} {op : Operation Nat} {operands : List Expr} {storeAs : Option String}
      (he : e ∈ operands) (h : Expr.RefersTo r e) :
      Expr.RefersTo r (.operation op operands storeAs)

namespace Expr

variable {r : Ref}

@[simp]
theorem refersTo_value {v : Value} : RefersTo r (.value v) ↔ v = .object r :=
  ⟨fun h => by cases h with | value h => exact h, .value⟩

@[simp]
theorem not_refersTo_name {n : String} : ¬ RefersTo r (.name n) := nofun

@[simp]
theorem refersTo_array {items : List Expr} :
    RefersTo r (.array items) ↔ ∃ e ∈ items, RefersTo r e :=
  ⟨fun h => by cases h with | item he h => exact ⟨_, he, h⟩, fun ⟨_, he, h⟩ => .item he h⟩

@[simp]
theorem refersTo_operation {op : Operation Nat} {operands : List Expr} {storeAs : Option String} :
    RefersTo r (.operation op operands storeAs) ↔ ∃ e ∈ operands, RefersTo r e :=
  ⟨fun h => by cases h with | operand he h => exact ⟨_, he, h⟩, fun ⟨_, he, h⟩ => .operand he h⟩

end Expr

namespace HasRefs

instance : HasRefs Expr := ⟨fun e r => e.RefersTo r⟩

instance : HasRefs Behaviour :=
  ⟨fun f r => match f with
    | .native _ => False
    | .advances iterator => refers iterator r
    | .script f => refers f.body r⟩

instance : HasRefs FunctionData := ⟨fun f r => refers f.behaviour r⟩

instance : HasRefs Handler := ⟨fun h r => refers h.object r ∨ refers h.operations r⟩

instance : HasRefs CallTraps := ⟨fun c r => refers c.call r ∨ refers c.construct r⟩

instance : HasRefs TrapTable :=
  ⟨fun t r => match t with
    | .functions table => refers table r
    | .adapted h callTraps => refers h r ∨ refers callTraps r
    | .enumeratesTarget => False⟩

end HasRefs

/-- The traps hand out the target: a function of a table is called with it, a missing one forwards
to it, and enumerating an iterator gives it.  A handler knows nothing of it. -/
def TrapTable.exposes : TrapTable → Bool
  | .functions _ | .enumeratesTarget => true
  | .adapted _ _ => false

/-- The target that a proxy keeps to itself. -/
def Kind.hidden? : Kind → Option Ref
  | .proxy target (.adapted _ _) => some target
  | _ => none

namespace HasRefs

instance : HasRefs Kind :=
  ⟨fun k r => match k with
    | .function f => refers f r
    | .proxy target traps => (traps.exposes = true ∧ refers target r) ∨ refers traps r
    | .map data => refers data r
    | .set data => refers data r
    | .iterator source _ => refers source r
    | .ordinary | .array _ _ | .wrapper _ | .error | .date _ | .regexp _ _ => False⟩

instance : HasRefs Object :=
  ⟨fun o r => refers o.prototype r ∨ refers o.properties r ∨ refers o.kind r⟩

instance : HasRefs Heap := ⟨fun h r => ∃ p, refers (h.object p) r⟩

instance : HasRefs Extensions :=
  ⟨fun x r => refers x.iteratorPrototype r ∨ refers x.iteratorConstructor r⟩

instance : HasRefs Machine :=
  ⟨fun m r => refers m.heap r ∨ refers m.extensions r ∨ refers m.bindings r ∨ refers m.caught r⟩

/-! ## Methods -/

instance : HasRefs Frame :=
  ⟨fun f r => refers f.receiver r ∨ refers f.arguments r ∨ refers f.newTarget r⟩

instance : HasRefs Result :=
  ⟨fun x r => match x with
    | .value v => refers v r
    | .plain _ => False⟩

instance {α : Type} : HasRefs (Method α) :=
  ⟨fun μ r => match μ with
    | .getOwnProperty o _ | .hasProperty o _ | .delete o _ | .ownKeys o => refers o r
    | .defineOwnProperty o _ d => refers o r ∨ refers d r
    | .get o _ receiver => refers o r ∨ refers receiver r
    | .set o _ v receiver => refers o r ∨ refers v r ∨ refers receiver r
    | .setPrototypeOf o p => refers o r ∨ refers p r
    | .call f receiver arguments => refers f r ∨ refers receiver r ∨ refers arguments r
    | .construct f arguments newTarget => refers f r ∨ refers arguments r ∨ refers newTarget r
    | .evaluate frame e => refers frame r ∨ refers e r⟩

end HasRefs

/-- The places that a method hands on: all that it refers to, but not whom it calls. -/
def Method.Hands {α : Type} (μ : Method α) (r : Ref) : Prop :=
  match μ with
  | .call _ receiver arguments => refers receiver r ∨ refers arguments r
  | .construct _ arguments newTarget => refers arguments r ∨ refers newTarget r
  | μ => refers μ r

end ObjectModel
