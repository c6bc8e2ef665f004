import ObjectModel.Text.Wtf8
import ObjectModel.Value
import Std.Data.TreeMap
import Std.Data.TreeMap.Lemmas

/-!
# Interned texts

A table keeps every text once, in bytes and with the number of its units.  A text is looked up by
its bytes, so each way to make one ends at the same entry.  Nothing is ever removed or replaced.

A text is known by a place of 32 bits (`TextRef`).  The place is that of its entry as long as places
last; all entries from the last place on are known by that one (`TextRef.ofEntry`).
-/

namespace ObjectModel

/-- The place by which an interned text is known. -/
structure TextRef where
  index : Nat
  index_lt : index < Number.maxWord
  deriving DecidableEq

namespace TextRef

/-- The place of the empty text, which is interned first. -/
def empty : TextRef := ⟨0, by decide⟩

def isEmpty (r : TextRef) : Bool := r == empty

/-- The last place there is. -/
def final : TextRef := ⟨Number.maxWord - 1, by decide⟩

theorem lastPlace_lt (count : Nat) : lastPlace count < Number.maxWord := by
  unfold lastPlace Number.maxWord
  omega

/-- The place that the entry at a position is known by. -/
def ofEntry (i : Nat) : TextRef := ⟨lastPlace (i + 1), lastPlace_lt _⟩

end TextRef

/-- A text as it is kept: its bytes, and how many units it has. -/
structure StoredText where
  data : Wtf8
  length : Nat
  length_eq : length = data.units.length
  deriving DecidableEq

def StoredText.of (w : Wtf8) : StoredText := ⟨w, w.units.length, rfl⟩

structure TextTable where
  texts : Array StoredText
  index : Std.TreeMap Wtf8 TextRef
  /-- No text is kept twice. -/
  distinct : ∀ (w : Wtf8) (i j : Nat),
    texts[i]? = some (.of w) → texts[j]? = some (.of w) → i = j
  /-- Bytes lead to the place that their entry is known by. -/
  indexed : ∀ (w : Wtf8) (r : TextRef),
    index[w]? = some r ↔ ∃ i, texts[i]? = some (.of w) ∧ r = .ofEntry i

/-- How a text is made. -/
inductive TextConstruction where
  /-- A copy of a string's bytes. -/
  | copy (s : String)
  | string (s : String)
  | units (us : List UInt16)
  /-- The units from a position on. -/
  | tail (r : TextRef) (start : Nat)
  | concat (rs : List TextRef)

namespace TextTable

/-- What is kept at a place; where there is nothing, the empty text. -/
def stored (t : TextTable) (r : TextRef) : StoredText := t.texts.getD r.index (.of .empty)

/-- The text at a place. -/
def text (t : TextTable) (r : TextRef) : Text := ⟨(t.stored r).data.units⟩

def length (t : TextTable) (r : TextRef) : Nat := (t.stored r).length

/-- The table without any texts. -/
def empty : TextTable := ⟨#[], ∅, by simp, by simp⟩

variable {t : TextTable} {w : Wtf8}

theorem not_kept (hw : t.index[w]? = none) (i : Nat) : t.texts[i]? ≠ some (.of w) := by
  intro hi
  have hplace : t.index[w]? = some (.ofEntry i) := (t.indexed w _).2 ⟨i, hi, rfl⟩
  rw [hw] at hplace
  cases hplace

theorem distinct_push (hw : t.index[w]? = none) (w' : Wtf8) (i j : Nat)
    (hi : (t.texts.push (.of w))[i]? = some (.of w'))
    (hj : (t.texts.push (.of w))[j]? = some (.of w')) : i = j := by
  rw [Array.getElem?_push] at hi hj
  split at hi
  · next hlast =>
    cases hi
    split at hj
    · next hlast' => rw [hlast, hlast']
    · exact absurd hj (not_kept hw j)
  · split at hj
    · cases hj
      exact absurd hi (not_kept hw i)
    · exact t.distinct w' i j hi hj

theorem indexed_push (hw : t.index[w]? = none) (w' : Wtf8) (r : TextRef) :
    (t.index.insert w (.ofEntry t.texts.size))[w']? = some r ↔
      ∃ i, (t.texts.push (.of w))[i]? = some (.of w') ∧ r = .ofEntry i := by
  simp only [Std.TreeMap.getElem?_insert, Array.getElem?_push, Std.compare_eq_iff_eq]
  by_cases hsame : w = w'
  · subst hsame
    rw [if_pos rfl, Option.some_inj]
    constructor
    · rintro rfl
      exact ⟨t.texts.size, if_pos rfl, rfl⟩
    · rintro ⟨i, hi, rfl⟩
      split at hi
      · next hlast => rw [hlast]
      · exact absurd hi (not_kept hw i)
  · rw [if_neg hsame, t.indexed]
    refine exists_congr fun i => and_congr_left fun _ => ?_
    split
    · next hlast =>
      have hnone : t.texts[i]? = none := by rw [hlast]; exact Array.getElem?_size
      have hother : StoredText.of w ≠ .of w' := fun h => hsame (congrArg StoredText.data h)
      simp [hnone, hother]
    · exact Iff.rfl

/-- The place of some bytes, which join the table if they are new. -/
def intern (t : TextTable) (w : Wtf8) : TextRef × TextTable :=
  match h : t.index[w]? with
  | some r => (r, t)
  | none =>
    let last := TextRef.ofEntry t.texts.size
    (last, ⟨t.texts.push (.of w), t.index.insert w last, distinct_push h, indexed_push h⟩)

end TextTable

/-- The bytes of the text that a construction makes, with the texts of a table. -/
def TextConstruction.encoded (t : TextTable) : TextConstruction → Wtf8
  | .copy s => Wtf8.empty.push (.ofString s)
  | .string s => .ofString s
  | .units us => .ofUnits us
  | .tail r start => .ofUnits ((t.text r).units.drop start)
  | .concat rs => .concat (rs.map fun r => (t.stored r).data)

namespace TextTable

/-- Makes a text. -/
def make (t : TextTable) (c : TextConstruction) : TextRef × TextTable := t.intern (c.encoded t)

/-- The table after some constructions. -/
def makeAll (t : TextTable) (cs : List TextConstruction) : TextTable :=
  cs.foldl (fun t c => (t.make c).2) t

/-- The table of a new machine: the empty text, and the description of the first symbol. -/
def initial : TextTable := empty.makeAll [.copy "", .copy "Symbol.iterator"]

end TextTable

end ObjectModel
