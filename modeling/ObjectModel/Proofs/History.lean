import Mathlib.Data.List.Induction
import ObjectModel.Proofs.Slots

/-!
# Histories of keyed slots

A history is the list of the edits that were made, each an insertion or a removal under a key.
Keys are told apart by a relation `same`; so much can be said about a key without any slots:

    Leaves same edits k b    the last edit of the key is an insertion of `b`
    Since same edits k n     edit `n` made the key present, and it is present since
    Earlier same edits j k   `j` is present since an earlier edit than `k`

Slots record a history (`Slots.Records`) when they hold what it leaves, in the order in which the
keys became present.  The slots store every key in one form of its class, so that `same` is equality
of these forms.  What one edit does is told by `Records.insert` and `Records.remove`.
-/

namespace ObjectModel

/-- Where a list with one more element is cut. -/
theorem concat_cut {α : Type} {own earlier later : List α} {s t : α}
    (h : own ++ [s] = earlier ++ t :: later) :
    own = earlier ∧ s = t ∨ ∃ later', own = earlier ++ t :: later' ∧ later = later' ++ [s] := by
  rcases later.eq_nil_or_concat with rfl | ⟨later', x, rfl⟩
  · obtain ⟨hown, hlast⟩ := List.append_inj' h rfl
    exact .inl ⟨hown, List.head_eq_of_cons_eq hlast⟩
  · have h : own ++ [s] = (earlier ++ t :: later') ++ [x] := by simpa using h
    obtain ⟨hown, hlast⟩ := List.append_inj' h rfl
    exact .inr ⟨later', hown, by rw [List.head_eq_of_cons_eq hlast, List.concat_eq_append]⟩

/-- One edit of keyed slots. -/
inductive SlotEdit (κ β : Type) where
  | insert (k : κ) (b : β)
  | remove (k : κ)

namespace SlotEdit

variable {κ β : Type}

def key : SlotEdit κ β → κ
  | .insert k _ => k
  | .remove k => k

section History

variable (same : κ → κ → Prop) (edits : List (SlotEdit κ β))

/-- The last edit of the key is an insertion of `b`. -/
def Leaves (k : κ) (b : β) : Prop :=
  ∃ before k' after, edits = before ++ .insert k' b :: after ∧ same k' k ∧
    ∀ e ∈ after, ¬ same e.key k

/-- The last edit of the key is an insertion. -/
def Present (k : κ) : Prop := ∃ b, Leaves same edits k b

/-- The edit with this number inserted the key when it was not present, and no later one removed
it. -/
def Since (k : κ) (n : Nat) : Prop :=
  ∃ before k' b after, edits = before ++ .insert k' b :: after ∧ before.length = n ∧ same k' k ∧
    ¬ Present same before k ∧ ∀ j, .remove j ∈ after → ¬ same j k

/-- The one key is present since an earlier edit than the other. -/
def Earlier (j k : κ) : Prop :=
  ∃ m n, Since same edits j m ∧ Since same edits k n ∧ m < n

end History

variable {same : κ → κ → Prop} {edits : List (SlotEdit κ β)} {j k : κ} {b b' : β} {n : Nat}

theorem not_present_nil : ¬ Present same ([] : List (SlotEdit κ β)) k := by
  rintro ⟨b, before, k', after, h, -⟩
  simp at h

/-- One more edit of the key decides alone what it leaves, and one of another key leaves all as it
was. -/
theorem leaves_concat {e : SlotEdit κ β} :
    Leaves same (edits ++ [e]) k b ↔
      (same e.key k ∧ ∃ k', e = .insert k' b) ∨ (¬ same e.key k ∧ Leaves same edits k b) := by
  constructor
  · rintro ⟨before, k', after, hcut, hsame, hafter⟩
    rcases concat_cut hcut with ⟨-, rfl⟩ | ⟨after', rfl, rfl⟩
    · exact .inl ⟨hsame, k', rfl⟩
    · refine .inr ⟨hafter e (by simp), before, k', after', rfl, hsame, fun x hx => ?_⟩
      exact hafter x (by simp [hx])
  · rintro (⟨hsame, k', rfl⟩ | ⟨hother, before, k', after, rfl, hsame, hafter⟩)
    · exact ⟨edits, k', [], rfl, hsame, fun x hx => absurd hx List.not_mem_nil⟩
    · refine ⟨before, k', after ++ [e], by simp, hsame, fun x hx => ?_⟩
      rcases List.mem_append.1 hx with hx | hx
      · exact hafter x hx
      · rw [List.mem_singleton.1 hx]
        exact hother

theorem leaves_concat_insert :
    Leaves same (edits ++ [.insert j b']) k b ↔
      (same j k ∧ b' = b) ∨ (¬ same j k ∧ Leaves same edits k b) := by
  rw [leaves_concat]
  simp [key]

theorem leaves_concat_remove :
    Leaves same (edits ++ [.remove j]) k b ↔ ¬ same j k ∧ Leaves same edits k b := by
  rw [leaves_concat]
  simp [key]

/-- A key stays present as long as no edit removes it. -/
theorem Present.append (h : Present same edits k) {more : List (SlotEdit κ β)}
    (hmore : ∀ j, .remove j ∈ more → ¬ same j k) : Present same (edits ++ more) k := by
  induction more using List.reverseRecOn with
  | nil => simpa using h
  | append_singleton more e ih =>
    obtain ⟨b, hb⟩ := ih fun j hj => hmore j (by simp [hj])
    rw [← List.append_assoc]
    cases e with
    | insert j b' =>
      by_cases hsame : same j k
      · exact ⟨b', leaves_concat_insert.2 (.inl ⟨hsame, rfl⟩)⟩
      · exact ⟨b, leaves_concat_insert.2 (.inr ⟨hsame, hb⟩)⟩
    | remove j => exact ⟨b, leaves_concat_remove.2 ⟨hmore j (by simp), hb⟩⟩

theorem Since.lt (h : Since same edits k n) : n < edits.length := by
  obtain ⟨before, k', b, after, rfl, rfl, -⟩ := h
  simp

theorem Since.concat_insert (h : Since same edits k n) (j : κ) (b : β) :
    Since same (edits ++ [.insert j b]) k n := by
  obtain ⟨before, k', b', after, rfl, hn, hsame, hnew, hafter⟩ := h
  refine ⟨before, k', b', after ++ [.insert j b], by simp, hn, hsame, hnew, fun x hx => ?_⟩
  exact hafter x (by simpa using hx)

theorem Since.concat_remove (h : Since same edits k n) (hother : ¬ same j k) :
    Since same (edits ++ [.remove j]) k n := by
  obtain ⟨before, k', b', after, rfl, hn, hsame, hnew, hafter⟩ := h
  refine ⟨before, k', b', after ++ [.remove j], by simp, hn, hsame, hnew, fun x hx => ?_⟩
  rcases List.mem_append.1 hx with hx | hx
  · exact hafter x hx
  · cases List.mem_singleton.1 hx
    exact hother

/-- A key that was not present is present since its insertion. -/
theorem since_insert (hnew : ¬ Present same edits k) (hsame : same j k) (b : β) :
    Since same (edits ++ [.insert j b]) k edits.length :=
  ⟨edits, j, b, [], rfl, rfl, hsame, hnew, fun _ hx => absurd hx List.not_mem_nil⟩

/-- A present key is present since some edit. -/
theorem Present.exists_since (h : Present same edits k) : ∃ n, Since same edits k n := by
  induction edits using List.reverseRecOn with
  | nil => exact absurd h not_present_nil
  | append_singleton edits e ih =>
    obtain ⟨b, hb⟩ := h
    cases e with
    | insert j b' =>
      by_cases hold : Present same edits k
      · obtain ⟨n, hn⟩ := ih hold
        exact ⟨n, hn.concat_insert j b'⟩
      · rcases leaves_concat_insert.1 hb with ⟨hsame, -⟩ | ⟨-, hleft⟩
        · exact ⟨_, since_insert hold hsame b'⟩
        · exact absurd ⟨b, hleft⟩ hold
    | remove j =>
      obtain ⟨hother, hleft⟩ := leaves_concat_remove.1 hb
      obtain ⟨n, hn⟩ := ih ⟨b, hleft⟩
      exact ⟨n, hn.concat_remove hother⟩

/-- A key became present once: at a later edit it would have been there. -/
theorem Since.not_lt {m : Nat} (hm : Since same edits k m) (hn : Since same edits k n) :
    ¬ m < n := by
  intro hlt
  obtain ⟨before, k', b, after, hcut, rfl, hsame, -, hkept⟩ := hm
  obtain ⟨before', k'', b', after', rfl, rfl, -, hnew, -⟩ := hn
  rcases List.append_eq_append_iff.1 hcut with ⟨rest, rfl, -⟩ | ⟨rest, rfl, hrest⟩
  · rw [List.length_append] at hlt
    omega
  · cases rest with
    | nil => simp at hlt
    | cons e rest =>
      obtain ⟨rfl, rfl⟩ := List.cons.inj hrest
      have hpresent : Present same (before ++ [.insert k' b]) k :=
        ⟨b, leaves_concat_insert.2 (.inl ⟨hsame, rfl⟩)⟩
      have hstill := hpresent.append fun j hj => hkept j (List.mem_append_left _ hj)
      exact hnew (by simpa using hstill)

theorem Earlier.asymm (h : Earlier same edits j k) : ¬ Earlier same edits k j := by
  rintro ⟨m', n', hk', hj', hlt'⟩
  obtain ⟨m, n, hj, hk, hlt⟩ := h
  have hj := hj.not_lt hj'
  have hk := hk'.not_lt hk
  omega

theorem Earlier.concat_insert (h : Earlier same edits j k) (l : κ) (b : β) :
    Earlier same (edits ++ [.insert l b]) j k := by
  obtain ⟨m, n, hj, hk, hlt⟩ := h
  exact ⟨m, n, hj.concat_insert l b, hk.concat_insert l b, hlt⟩

theorem Earlier.concat_remove (h : Earlier same edits j k) {l : κ} (hj : ¬ same l j)
    (hk : ¬ same l k) : Earlier same (edits ++ [.remove l]) j k := by
  obtain ⟨m, n, hm, hn, hlt⟩ := h
  exact ⟨m, n, hm.concat_remove hj, hn.concat_remove hk, hlt⟩

end SlotEdit

/-! ## Slots that record a history -/

open SlotEdit

/-- The slots hold what the history leaves, in the order in which the keys became present; keys
are stored in the form that `form` gives them. -/
structure Slots.Records {κ β : Type} [Ord κ] (same : κ → κ → Prop) (form : κ → κ)
    (s : Slots κ β) (edits : List (SlotEdit κ β)) : Prop where
  formed : ∀ e ∈ s.entries, form e.1 = e.1
  left : ∀ k b, s.find? (form k) = some b ↔ Leaves same edits k b
  ordered : s.entries.Pairwise fun e e' => Earlier same edits e.1 e'.1

namespace Slots.Records

variable {κ β : Type} [Ord κ] [Std.TransOrd κ] {same : κ → κ → Prop} {form : κ → κ}
  {s : Slots κ β} {edits : List (SlotEdit κ β)}

theorem empty : (Slots.empty : Slots κ β).Records same form [] where
  formed := fun _ he => absurd he List.not_mem_nil
  left := fun k b => by
    rw [find?_empty]
    exact ⟨fun h => absurd h (Option.some_ne_none b).symm, fun h => absurd ⟨b, h⟩ not_present_nil⟩
  ordered := .nil

variable (hsame : ∀ j k, same j k ↔ form j = form k) [DecidableEq κ]

include hsame

omit [Std.TransOrd κ] in
theorem remove (h : s.Records same form edits) {s' : Slots κ β} {k : κ}
    (hs' : s'.entries = s.entries.filter fun e => e.1 ≠ form k) :
    s'.Records same form (edits ++ [.remove k]) := by
  have hmem {e : κ × β} (he : e ∈ s'.entries) : e ∈ s.entries ∧ ¬ same k e.1 := by
    rw [hs', List.mem_filter, decide_eq_true_iff] at he
    refine ⟨he.1, fun hk => he.2 ?_⟩
    rw [← h.formed e he.1, (hsame _ _).1 hk]
  refine ⟨fun e he => h.formed e (hmem he).1, fun k' b => ?_, ?_⟩
  · rw [leaves_concat_remove, ← h.left, hsame, ← mem_entries, ← mem_entries, hs', List.mem_filter,
      decide_eq_true_iff, and_comm, ne_comm]
  · have hsub : s'.entries.Sublist s.entries := hs' ▸ List.filter_sublist
    refine (h.ordered.sublist hsub).imp_of_mem fun he he' hearlier => ?_
    exact hearlier.concat_remove (hmem he).2 (hmem he').2

variable [Std.LawfulEqOrd κ] (hform : ∀ k, form (form k) = form k)

include hform

theorem insert (h : s.Records same form edits) (k : κ) (b : β) :
    (s.insert (form k) b).Records same form (edits ++ [.insert k b]) := by
  have hentries : ∀ e ∈ (s.insert (form k) b).entries, form e.1 = e.1 := by
    rintro ⟨k', b'⟩ he
    rw [mem_entries, find?_insert] at he
    split at he
    · next hk => rw [hk, hform]
    · exact h.formed _ (mem_entries.2 he)
  refine ⟨hentries, fun k' b' => ?_, ?_⟩
  · rw [find?_insert, leaves_concat_insert, hsame, ← h.left]
    by_cases hk : form k' = form k
    · rw [if_pos hk]
      simp [hk]
    · rw [if_neg hk]
      simp [Ne.symm hk]
  · cases hfind : s.find? (form k) with
    | some old =>
      -- the key keeps its place
      rw [entries_insert_of_mem (by rw [hfind]; rfl), List.pairwise_map]
      refine h.ordered.imp fun {e e'} hearlier => ?_
      have hkey (e : κ × β) : (if e.1 = form k then (form k, b) else e).1 = e.1 := by
        split
        · next hk => exact hk.symm
        · rfl
      rw [hkey, hkey]
      exact hearlier.concat_insert k b
    | none =>
      rw [entries_insert_of_not_mem hfind, List.pairwise_append]
      refine ⟨h.ordered.imp fun hearlier => hearlier.concat_insert k b, List.pairwise_singleton _ _,
        fun e he e' he' => ?_⟩
      rw [List.mem_singleton.1 he']
      have hnew : ¬ Present same edits (form k) := by
        rintro ⟨old, hold⟩
        rw [← h.left, hform, hfind] at hold
        cases hold
      have hold : Present same edits e.1 :=
        ⟨e.2, (h.left _ _).1 (by rw [h.formed e he]; exact mem_entries.1 he)⟩
      obtain ⟨n, hn⟩ := hold.exists_since
      exact ⟨n, edits.length, hn.concat_insert k b,
        since_insert hnew ((hsame _ _).2 (hform k).symm) b, hn.lt⟩

end Slots.Records

end ObjectModel
