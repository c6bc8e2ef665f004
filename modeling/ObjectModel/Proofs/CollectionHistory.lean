import ObjectModel.Proofs.History
import ObjectModel.Proofs.Members
import ObjectModel.Session

/-!
# Maps and sets and their histories

A map or a set that started empty is determined by the calls that were made on it since, as an
insertion-ordered map whose keys are told apart by `sameValueZero` (`Slots.Collects`).  The slots
hold each key in its canonical form and look it up by equality; searching the slots from the first
on by `sameValueZero` leads to the same place (`Value.sameKey_iff`).

The calls are runs on a machine (`MapCall.run`, `SetCall.run`), in any order and with anything in
between that leaves the slots alone (`Machine.Called`).  Every call ends with the answer that the
history determines.
-/

namespace ObjectModel

open SlotEdit

/-! ## Keys -/

namespace Value

/-- Collections take the values for one key. -/
def SameKey (x y : Value) : Prop := x.sameValueZero y = true

/-- **Two values are one key exactly when their canonical forms are equal.** -/
theorem sameKey_iff (x y : Value) : x.SameKey y ↔ x.canonicalKey = y.canonicalKey := by
  have hzero {a : Number} (ha : a.isZero = true) : (number a).canonicalKey = .number .zero := by
    rw [canonicalKey, if_pos ha]
  have hother {a : Number} (ha : a.isZero = false) : (number a).canonicalKey = .number a := by
    rw [canonicalKey, ha]
    rfl
  have hne {a : Number} (ha : a.isZero = false) : a ≠ .zero := by
    rintro rfl
    cases ha
  unfold SameKey
  cases x with
  | number a =>
    cases y with
    | number b =>
      rw [sameValueZero]
      cases ha : a.isZero <;> cases hb : b.isZero
      · rw [hother ha, hother hb]
        simp
      · have hab : a ≠ b := by
          rintro rfl
          rw [ha] at hb
          cases hb
        rw [hother ha, hzero hb]
        simp [hab, hne ha]
      · have hab : a ≠ b := by
          rintro rfl
          rw [ha] at hb
          cases hb
        rw [hzero ha, hother hb]
        simp [hab, (hne hb).symm]
      · rw [hzero ha, hzero hb]
        simp
    | _ => cases ha : a.isZero <;> simp [sameValueZero, canonicalKey, ha]
  | _ =>
    cases y with
    | number b => cases hb : b.isZero <;> simp [sameValueZero, canonicalKey, hb]
    | _ => simp [sameValueZero, canonicalKey]

theorem canonicalKey_canonicalKey (v : Value) : v.canonicalKey.canonicalKey = v.canonicalKey := by
  cases v with
  | number a =>
    cases ha : a.isZero with
    | false => simp [canonicalKey, ha]
    | true =>
      simp only [canonicalKey, ha]
      rfl
  | _ => rfl

end Value

/-! ## Slots -/

/-- Slots are what a history leaves: an insertion-ordered map whose keys are told apart by
`sameValueZero`. -/
structure Slots.Collects {β : Type} (s : Slots Value β) (edits : List (SlotEdit Value β)) :
    Prop where
  /-- Keys that are the same stand in one slot. -/
  unique : ∀ i j e e', s.entryAt? i = some e → s.entryAt? j = some e' → e.1.SameKey e'.1 → i = j
  /-- A zero that is stored has no sign. -/
  unsigned : ∀ e ∈ s.entries, ∀ a : Number, e.1 = .number a → a.isZero = true → a = .zero
  /-- The index finds the slot that a search by `sameValueZero` finds. -/
  searched : ∀ k, s.position? k.canonicalKey =
    s.cells.toList.findIdx? fun cell => cell.any fun e => e.1.sameValueZero k
  /-- The members are those that the history leaves. -/
  held : ∀ k b, (∃ k', (k', b) ∈ s.entries ∧ k'.SameKey k) ↔ Leaves Value.SameKey edits k b
  /-- The members are listed in the order in which they became present. -/
  ordered : s.entries.Pairwise fun e e' => Earlier Value.SameKey edits e.1 e'.1
  /-- Storing under a present key moves nothing. -/
  replaced : ∀ k b, Present Value.SameKey edits k →
    ∀ k', (s.insert k.canonicalKey b).position? k' = s.position? k'

namespace Slots

variable {β : Type} {s : Slots Value β} {edits : List (SlotEdit Value β)}

/-- The slots of a collection record its history. -/
abbrev Keeps (s : Slots Value β) (edits : List (SlotEdit Value β)) : Prop :=
  s.Records Value.SameKey Value.canonicalKey edits

theorem Keeps.contains_iff (h : s.Keeps edits) (k : Value) :
    s.contains k.canonicalKey = true ↔ Present Value.SameKey edits k := by
  rw [contains_eq, Option.isSome_iff_exists]
  exact exists_congr (h.left k)

theorem Keeps.collects (h : s.Keeps edits) : s.Collects edits := by
  have hsame {e : Value × β} (he : e ∈ s.entries) (k : Value) :
      e.1.sameValueZero k = true ↔ e.1 = k.canonicalKey := by
    refine (Value.sameKey_iff _ _).trans ?_
    rw [h.formed e he]
  have hmem {i : Nat} {e : Value × β} (he : s.entryAt? i = some e) :
      s.cells[i]? = some (some e) ∧ e ∈ s.entries := by
    have hcell := Option.join_eq_some_iff.1 he
    exact ⟨hcell, mem_entries.2 (find?_eq_some_iff.2 ⟨i, hcell⟩)⟩
  refine
    { unique := fun i j e e' he he' hkey => ?_
      unsigned := fun e he a ha hzero => ?_
      searched := fun k => position?_eq_findIdx? fun e he => hsame he k
      held := fun k b => ?_
      ordered := h.ordered
      replaced := fun k b hk => position?_insert s ((h.contains_iff k).2 hk) b }
  · obtain ⟨hi, he⟩ := hmem he
    obtain ⟨hj, he'⟩ := hmem he'
    have hkeys : e.1 = e'.1 := by
      rw [(hsame he e'.1).1 hkey, h.formed e' he']
    have hj : s.cells[j]? = some (some (e.1, e'.2)) := hkeys ▸ hj
    exact cell_unique hi hj
  · have hform := h.formed e he
    rw [ha, Value.canonicalKey, if_pos hzero] at hform
    exact (Value.number.inj hform).symm
  · rw [← h.left, ← mem_entries]
    constructor
    · rintro ⟨k', hmember, hkey⟩
      rw [← (hsame hmember k).1 hkey]
      exact hmember
    · intro hmember
      exact ⟨_, hmember, (hsame hmember k).2 rfl⟩

end Slots

/-! ## Calls -/

/-- A run of calls on a collection, and of acts that leave its slots alone. -/
inductive Machine.Called {γ : Type} (run : γ → Run Value) (c : Ref) (m₀ : Machine) :
    List γ → Machine → Prop where
  | start : Called run c m₀ [] m₀
  | call {calls : List γ} {m m' : Machine} {v : Value} (hrest : Called run c m₀ calls m)
      (call : γ) (h : run call m = .ok v m') : Called run c m₀ (calls ++ [call]) m'
  | aside {calls : List γ} {m m' : Machine} (hrest : Called run c m₀ calls m)
      (h : m'.heap.kind c = m.heap.kind c) : Called run c m₀ calls m'

inductive MapCall where
  | set (k v : Value)
  | get (k : Value)
  | has (k : Value)
  | delete (k : Value)

inductive SetCall where
  | add (v : Value)
  | has (v : Value)
  | delete (v : Value)

namespace MapCall

def run (map : Ref) : MapCall → Run Value
  | .set k v => do
    Engine.mapSet (.object map) k v
    pure .undefined
  | .get k => Engine.mapGet (.object map) k
  | .has k => return .bool (← Engine.mapHas (.object map) k)
  | .delete k => return .bool (← Engine.mapDelete (.object map) k)

def edit? : MapCall → Option (SlotEdit Value Value)
  | .set k v => some (.insert k v)
  | .delete k => some (.remove k)
  | .get _ | .has _ => none

/-- What a call answers after a history. -/
def Answers (edits : List (SlotEdit Value Value)) : MapCall → Value → Prop
  | .set _ _, answer => answer = .undefined
  | .get k, answer => Leaves Value.SameKey edits k answer ∨
    ¬ Present Value.SameKey edits k ∧ answer = .undefined
  | .has k, answer | .delete k, answer =>
    ∃ b, answer = .bool b ∧ (b = true ↔ Present Value.SameKey edits k)

/-- What a call answers, and what it makes of the slots. -/
def apply (data : MapData) : MapCall → Value × MapData
  | .set k v => (.undefined, data.set k v)
  | .get k => (data.get k, data)
  | .has k => (.bool (data.has k), data)
  | .delete k => (.bool (data.has k), data.delete k)

end MapCall

namespace SetCall

def run (set : Ref) : SetCall → Run Value
  | .add v => do
    Engine.setAdd (.object set) v
    pure .undefined
  | .has v => return .bool (← Engine.setHas (.object set) v)
  | .delete v => return .bool (← Engine.setDelete (.object set) v)

def edit? : SetCall → Option (SlotEdit Value Unit)
  | .add v => some (.insert v ())
  | .delete v => some (.remove v)
  | .has _ => none

/-- What a call answers after a history. -/
def Answers (edits : List (SlotEdit Value Unit)) : SetCall → Value → Prop
  | .add _, answer => answer = .undefined
  | .has v, answer | .delete v, answer =>
    ∃ b, answer = .bool b ∧ (b = true ↔ Present Value.SameKey edits v)

/-- What a call answers, and what it makes of the slots. -/
def apply (data : SetData) : SetCall → Value × SetData
  | .add v => (.undefined, data.add v)
  | .has v => (.bool (data.has v), data)
  | .delete v => (.bool (data.has v), data.delete v)

end SetCall

/-! ### One call -/

section Step

variable {c : Ref} {m : Machine}

theorem Machine.kind_update (kind : Kind) (h : m.heap.kind c ≠ .ordinary) :
    ∃ m', Run.update c (fun o => { o with kind }) m = .ok () m' ∧ m'.heap.kind c = kind := by
  refine ⟨_, rfl, ?_⟩
  show ((m.heap.modify c fun o => { o with kind }).object c).kind = kind
  rw [Heap.object_modify, if_pos ⟨rfl, Heap.live_of_kind h⟩]

/-- **A call on a map ends**, with the answer of its slots. -/
theorem MapCall.run_apply {data : MapData} (hkind : m.heap.kind c = .map data) (call : MapCall) :
    ∃ m', call.run c m = .ok (call.apply data).1 m' ∧
      m'.heap.kind c = .map (call.apply data).2 := by
  have hrequire := Engine.requireMap_map hkind
  have hne : m.heap.kind c ≠ .ordinary := by
    rw [hkind]
    exact Kind.noConfusion
  cases call with
  | set k v =>
    obtain ⟨m', hupdate, hkind'⟩ := Machine.kind_update (.map (data.set k v)) hne
    refine ⟨m', ?_, hkind'⟩
    rw [run, Engine.mapSet, bind_assoc, Run.bind_ok hrequire, Run.bind_ok hupdate]
    rfl
  | get k =>
    refine ⟨m, ?_, hkind⟩
    rw [run, Engine.mapGet, Run.bind_ok hrequire]
    rfl
  | has k =>
    refine ⟨m, ?_, hkind⟩
    rw [run, Engine.mapHas, bind_assoc, Run.bind_ok hrequire]
    rfl
  | delete k =>
    obtain ⟨m', hupdate, hkind'⟩ := Machine.kind_update (.map (data.delete k)) hne
    refine ⟨m', ?_, hkind'⟩
    rw [run, Engine.mapDelete, bind_assoc, Run.bind_ok hrequire, bind_assoc, Run.bind_ok hupdate]
    rfl

theorem SetCall.run_apply {data : SetData} (hkind : m.heap.kind c = .set data) (call : SetCall) :
    ∃ m', call.run c m = .ok (call.apply data).1 m' ∧
      m'.heap.kind c = .set (call.apply data).2 := by
  have hrequire := Engine.requireSet_set hkind
  have hne : m.heap.kind c ≠ .ordinary := by
    rw [hkind]
    exact Kind.noConfusion
  cases call with
  | add v =>
    obtain ⟨m', hupdate, hkind'⟩ := Machine.kind_update (.set (data.add v)) hne
    refine ⟨m', ?_, hkind'⟩
    rw [run, Engine.setAdd, bind_assoc, Run.bind_ok hrequire, Run.bind_ok hupdate]
    rfl
  | has v =>
    refine ⟨m, ?_, hkind⟩
    rw [run, Engine.setHas, bind_assoc, Run.bind_ok hrequire]
    rfl
  | delete v =>
    obtain ⟨m', hupdate, hkind'⟩ := Machine.kind_update (.set (data.delete v)) hne
    refine ⟨m', ?_, hkind'⟩
    rw [run, Engine.setDelete, bind_assoc, Run.bind_ok hrequire, bind_assoc, Run.bind_ok hupdate]
    rfl

end Step

/-! ### What calls record and answer -/

section Records

variable {data : MapData} {edits : List (SlotEdit Value Value)} {members : SetData}
  {additions : List (SlotEdit Value Unit)}

theorem MapCall.keeps_apply (h : data.Keeps edits) (call : MapCall) :
    (call.apply data).2.Keeps (edits ++ call.edit?.toList) := by
  cases call with
  | set k v => exact h.insert Value.sameKey_iff Value.canonicalKey_canonicalKey k v
  | delete k => exact h.remove Value.sameKey_iff (data.entries_erase k.canonicalKey)
  | get k | has k =>
    rw [edit?, Option.toList_none, List.append_nil]
    exact h

theorem SetCall.keeps_apply (h : members.Keeps additions) (call : SetCall) :
    (call.apply members).2.Keeps (additions ++ call.edit?.toList) := by
  cases call with
  | add v => exact h.insert Value.sameKey_iff Value.canonicalKey_canonicalKey v ()
  | delete v => exact h.remove Value.sameKey_iff (members.entries_erase v.canonicalKey)
  | has v =>
    rw [edit?, Option.toList_none, List.append_nil]
    exact h

theorem MapCall.answers_apply (h : data.Keeps edits) (call : MapCall) :
    call.Answers edits (call.apply data).1 := by
  cases call with
  | set k v => rfl
  | get k =>
    show _ ∨ _
    cases hfind : data.find? k.canonicalKey with
    | none =>
      have habsent : ¬ Present Value.SameKey edits k := by
        rintro ⟨b, hb⟩
        rw [← h.left, hfind] at hb
        cases hb
      exact .inr ⟨habsent, by rw [apply, MapData.get, hfind]; rfl⟩
    | some v =>
      refine .inl ?_
      rw [apply, MapData.get, hfind]
      exact (h.left k v).1 hfind
  | has k | delete k => exact ⟨_, rfl, h.contains_iff k⟩

theorem SetCall.answers_apply (h : members.Keeps additions) (call : SetCall) :
    call.Answers additions (call.apply members).1 := by
  cases call with
  | add v => rfl
  | has v | delete v => exact ⟨_, rfl, h.contains_iff v⟩

end Records

/-! ### All calls -/

section Calls

variable {γ β : Type} {run : γ → Run Value} {kind : Slots Value β → Kind}
  {apply : Slots Value β → γ → Value × Slots Value β} {edit? : γ → Option (SlotEdit Value β)}
  {c : Ref} {m₀ m : Machine} {calls : List γ}
  (hrun : ∀ {m : Machine} {data : Slots Value β}, m.heap.kind c = kind data → ∀ call,
    ∃ m', run call m = .ok (apply data call).1 m' ∧ m'.heap.kind c = kind (apply data call).2)
  (hkeeps : ∀ {data : Slots Value β} {edits : List (SlotEdit Value β)}, data.Keeps edits →
    ∀ call, (apply data call).2.Keeps (edits ++ (edit? call).toList))
  (hstart : m₀.heap.kind c = kind .empty) (h : m₀.Called run c calls m)

include hrun hkeeps hstart h

/-- What one call keeps, any number of calls keep. -/
theorem Machine.Called.keeps :
    ∃ data, m.heap.kind c = kind data ∧ data.Keeps (calls.filterMap edit?) := by
  induction h with
  | start => exact ⟨.empty, hstart, .empty⟩
  | call _ call hcall ih =>
    obtain ⟨data, hkind, hdata⟩ := ih
    obtain ⟨m', hcall', hkind'⟩ := hrun hkind call
    cases hcall.symm.trans hcall'
    refine ⟨_, hkind', ?_⟩
    have hnext := hkeeps hdata call
    rw [List.filterMap_append]
    cases hedit : edit? call <;> simpa [hedit] using hnext
  | aside _ hsame ih =>
    obtain ⟨data, hkind, hdata⟩ := ih
    exact ⟨data, hsame.trans hkind, hdata⟩

/-- After any number of calls a further one ends with the answer of what they left. -/
theorem Machine.Called.collects {answers : List (SlotEdit Value β) → γ → Value → Prop}
    (hanswers : ∀ {data : Slots Value β} {edits : List (SlotEdit Value β)}, data.Keeps edits →
      ∀ call, answers edits call (apply data call).1) :
    ∃ data, m.heap.kind c = kind data ∧ data.Collects (calls.filterMap edit?) ∧
      ∀ call, ∃ answer m', run call m = .ok answer m' ∧
        answers (calls.filterMap edit?) call answer := by
  obtain ⟨data, hkind, hdata⟩ := h.keeps hrun hkeeps hstart
  refine ⟨data, hkind, hdata.collects, fun call => ?_⟩
  obtain ⟨m', hcall, -⟩ := hrun hkind call
  exact ⟨_, m', hcall, hanswers hdata call⟩

end Calls

/-- **Maps and sets are what the calls on them left**, and every further call ends with the answer
that these determine. -/
theorem collections_reflect_calls {m₀ m : Machine} {c : Ref} :
    (∀ calls : List MapCall, m₀.heap.kind c = .map .empty →
      m₀.Called (MapCall.run c) c calls m →
        ∃ data, m.heap.kind c = .map data ∧ data.Collects (calls.filterMap MapCall.edit?) ∧
          ∀ call : MapCall, ∃ answer m', call.run c m = .ok answer m' ∧
            call.Answers (calls.filterMap MapCall.edit?) answer) ∧
    (∀ calls : List SetCall, m₀.heap.kind c = .set .empty →
      m₀.Called (SetCall.run c) c calls m →
        ∃ data, m.heap.kind c = .set data ∧ data.Collects (calls.filterMap SetCall.edit?) ∧
          ∀ call : SetCall, ∃ answer m', call.run c m = .ok answer m' ∧
            call.Answers (calls.filterMap SetCall.edit?) answer) := by
  constructor
  · intro calls hstart hcalled
    exact hcalled.collects MapCall.run_apply MapCall.keeps_apply hstart MapCall.answers_apply
  · intro calls hstart hcalled
    exact hcalled.collects SetCall.run_apply SetCall.keeps_apply hstart SetCall.answers_apply

/-- A new map is empty. -/
theorem Machine.exists_newMap (m : Machine) :
    ∃ c m', Engine.newMap m = .ok c m' ∧ m'.heap.kind c = .map .empty := by
  exact ⟨_, _, rfl, congrArg Object.kind (m.heap.object_allocate_self _)⟩

/-- Any calls can be made on a map. -/
theorem MapCall.exists_called {c : Ref} {m₀ : Machine} (hstart : m₀.heap.kind c = .map .empty)
    (calls : List MapCall) : ∃ m, m₀.Called (run c) c calls m := by
  induction calls using List.reverseRecOn with
  | nil => exact ⟨m₀, .start⟩
  | append_singleton calls call ih =>
    obtain ⟨m, hcalled⟩ := ih
    obtain ⟨data, hkind, -⟩ := hcalled.keeps run_apply keeps_apply hstart
    obtain ⟨m', hrun, -⟩ := run_apply hkind call
    exact ⟨m', hcalled.call call hrun⟩

/-- Not-a-number comes and goes and comes again, and both zeros are set. -/
theorem collections_reflect_calls_zeros :
    ∃ (m₀ m : Machine) (c : Ref) (calls : List MapCall) (data : MapData),
      Engine.newMap (Session.initialMachine ⟨false, false⟩) = .ok c m₀ ∧
      calls = [.set (.number .nan) (.bool false), .set (.number (.ofCode true 0)) (.bool true),
        .delete (.number .nan), .set (.number .zero) .null, .set (.number .nan) .undefined] ∧
      m₀.heap.kind c = .map .empty ∧ m₀.Called (MapCall.run c) c calls m ∧
      m.heap.kind c = .map data ∧ data.Collects (calls.filterMap MapCall.edit?) ∧
      ∃ answer m', MapCall.run c (.get (.number (.ofCode true 0))) m = .ok answer m' ∧
        MapCall.Answers (calls.filterMap MapCall.edit?) (.get (.number (.ofCode true 0))) answer := by
  obtain ⟨c, m₀, hnew, hstart⟩ :=
    Machine.exists_newMap (Session.initialMachine ⟨false, false⟩)
  obtain ⟨m, hcalled⟩ := MapCall.exists_called hstart
    [.set (.number .nan) (.bool false), .set (.number (.ofCode true 0)) (.bool true),
      .delete (.number .nan), .set (.number .zero) .null, .set (.number .nan) .undefined]
  obtain ⟨data, hkind, hcollects, hanswers⟩ := collections_reflect_calls.1 _ hstart hcalled
  exact ⟨m₀, m, c, _, data, hnew, rfl, hstart, hcalled, hkind, hcollects, hanswers _⟩

end ObjectModel
