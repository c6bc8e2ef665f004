import Std.Data.TreeMap
import Std.Data.TreeMap.Lemmas

/-!
# Keyed slots

A map from keys to contents that remembers the order in which its keys became present.  The
entries stand in cells, and an index leads from a present key to its cell.  Replacing the content
of a key keeps its cell; removing a key leaves its cell empty, so a cursor into the cells stays
valid; a key that is added again takes a new cell at the end.

The index and the cells agree (`Indexed`): a key leads to a cell exactly when the cell holds an
entry of that key.  So no key has two entries, and the index alone tells which keys are present.
-/

namespace ObjectModel

/-- A key leads to a cell exactly when an entry of that key stands there. -/
def Indexed {κ β : Type} [Ord κ] (cells : Array (Option (κ × β))) (index : Std.TreeMap κ Nat) :
    Prop :=
  ∀ (k : κ) (i : Nat), index[k]? = some i ↔ ∃ b, cells[i]? = some (some (k, b))

structure Slots (κ β : Type) [Ord κ] where
  cells : Array (Option (κ × β))
  index : Std.TreeMap κ Nat
  indexed : Indexed cells index

namespace Indexed

variable {κ β : Type} [Ord κ] [Std.TransOrd κ] {cells : Array (Option (κ × β))}
  {index : Std.TreeMap κ Nat}

theorem empty : Indexed (#[] : Array (Option (κ × β))) (∅ : Std.TreeMap κ Nat) := by
  simp [Indexed]

omit [Std.TransOrd κ] in
theorem replace (h : Indexed cells index) {k : κ} {i : Nat} (hk : index[k]? = some i) (b : β) :
    Indexed (cells.setIfInBounds i (some (k, b))) index := by
  intro k' j
  have hi := h k i
  have hj := h k' j
  grind

variable [Std.LawfulEqOrd κ]

theorem push (h : Indexed cells index) {k : κ} (hk : index[k]? = none) (b : β) :
    Indexed (cells.push (some (k, b))) (index.insert k cells.size) := by
  intro k' j
  have hj := h k' j
  simp only [Std.TreeMap.getElem?_insert, Array.getElem?_push, Std.compare_eq_iff_eq]
  by_cases hlast : j = cells.size
  · by_cases hkk : k = k' <;> simp_all
  · by_cases hkk : k = k' <;> grind

theorem clear (h : Indexed cells index) {k : κ} {i : Nat} (hk : index[k]? = some i) :
    Indexed (cells.setIfInBounds i none) (index.erase k) := by
  intro k' j
  have hi := h k i
  have hj := h k' j
  have hk' := h k' i
  grind

end Indexed

namespace Slots

variable {κ β : Type} [Ord κ]

/-- The entries in the order in which their keys became present. -/
def entries (s : Slots κ β) : List (κ × β) := s.cells.toList.filterMap id

/-- The number of present keys. -/
def size (s : Slots κ β) : Nat := s.index.size

def isEmpty (s : Slots κ β) : Bool := s.index.isEmpty

/-- The cell of a key. -/
def position? (s : Slots κ β) (k : κ) : Option Nat := s.index[k]?

def contains (s : Slots κ β) (k : κ) : Bool := (s.position? k).isSome

/-- The entry of a cell, if it holds one. -/
def entryAt? (s : Slots κ β) (i : Nat) : Option (κ × β) := (s.cells[i]?).join

def find? (s : Slots κ β) (k : κ) : Option β :=
  ((s.position? k).bind s.entryAt?).map Prod.snd

/-- The number of cells, empty ones included. -/
def extent (s : Slots κ β) : Nat := s.cells.size

variable [Std.TransOrd κ]

def empty : Slots κ β := ⟨#[], ∅, Indexed.empty⟩

instance : Inhabited (Slots κ β) := ⟨empty⟩

variable [Std.LawfulEqOrd κ]

/-- Adds an entry, or replaces it where it stands. -/
def insert (s : Slots κ β) (k : κ) (b : β) : Slots κ β :=
  match h : s.index[k]? with
  | some i => ⟨s.cells.setIfInBounds i (some (k, b)), s.index, s.indexed.replace h b⟩
  | none =>
    let last := s.cells.size
    ⟨s.cells.push (some (k, b)), s.index.insert k last, s.indexed.push h b⟩

/-- Removes a key and empties its cell. -/
def erase (s : Slots κ β) (k : κ) : Slots κ β :=
  match h : s.index[k]? with
  | some i => ⟨s.cells.setIfInBounds i none, s.index.erase k, s.indexed.clear h⟩
  | none => s

/-- The slots with the given entries added in their order. -/
def insertAll (s : Slots κ β) (es : List (κ × β)) : Slots κ β :=
  es.foldl (fun s e => s.insert e.1 e.2) s

end Slots

end ObjectModel
