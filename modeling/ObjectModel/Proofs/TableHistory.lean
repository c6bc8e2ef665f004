import ObjectModel.Proofs.History
import ObjectModel.Proofs.Regularity

/-!
# Property tables and their histories

A table that started empty is determined by the edits that were made since (`replay`).  It holds
under each key what the last insertion of the key put there, unless a removal came after it, and it
lists every present key once: the indexes in ascending order, then the names and then the symbols,
each since when they are present (`Key.Precedes`).  Replacing a property is no new insertion, so the
key keeps its place; removing and adding it again is one.
-/

namespace ObjectModel

open SlotEdit

/-- A key is listed before another one. -/
inductive Key.Precedes (edits : List (SlotEdit Key Property)) : Key → Key → Prop
  | index {i j : Nat} : i < j → Precedes edits (.index i) (.index j)
  | name {s t : Text} : Earlier Eq edits (.name s) (.name t) → Precedes edits (.name s) (.name t)
  | symbol {s t : Symbol} :
    Earlier Eq edits (.symbol s) (.symbol t) → Precedes edits (.symbol s) (.symbol t)
  | sort {j k : Key} : j.rank < k.rank → Precedes edits j k

theorem Key.Precedes.ne {edits : List (SlotEdit Key Property)} {j k : Key}
    (h : j.Precedes edits k) : j ≠ k := by
  rintro rfl
  cases h with
  | index h => exact Nat.lt_irrefl _ h
  | name h => exact h.asymm h
  | symbol h => exact h.asymm h
  | sort h => exact Nat.lt_irrefl _ h

namespace PropertyTable

/-- One edit of a table. -/
def edit (t : PropertyTable) : SlotEdit Key Property → PropertyTable
  | .insert k p => t.insert k p
  | .remove k => t.remove k

/-- The table that a history made from an empty one. -/
def replay (edits : List (SlotEdit Key Property)) : PropertyTable := edits.foldl edit empty

theorem replay_concat (edits : List (SlotEdit Key Property)) (e : SlotEdit Key Property) :
    replay (edits ++ [e]) = (replay edits).edit e := List.foldl_concat _ _ _ _

/-- **A table records its history.** -/
theorem records_replay (edits : List (SlotEdit Key Property)) :
    (replay edits).Records Eq id edits := by
  induction edits using List.reverseRecOn with
  | nil => exact Slots.Records.empty
  | append_singleton edits e ih =>
    rw [replay_concat]
    cases e with
    | insert k p => exact ih.insert (fun _ _ => Iff.rfl) (fun _ => rfl) k p
    | remove k => exact ih.remove (fun _ _ => Iff.rfl) ((replay edits).entries_remove k)

/-- A table gives up its cells when it becomes empty. -/
theorem extent_replay {edits : List (SlotEdit Key Property)}
    (h : (replay edits).isEmpty = true) : (replay edits).extent = 0 := by
  rcases edits.eq_nil_or_concat with rfl | ⟨edits, e, rfl⟩
  · rfl
  · rw [List.concat_eq_append, replay_concat] at h ⊢
    cases e with
    | insert k p =>
      have hnone := Slots.find?_of_isEmpty h k
      rw [edit, Slots.find?_insert, if_pos rfl] at hnone
      cases hnone
    | remove k =>
      rw [edit, remove] at h ⊢
      by_cases hrest : ((replay edits).erase k).isEmpty = true
      · rw [if_pos hrest]
        rfl
      · rw [if_neg hrest] at h
        exact absurd h hrest

section Keys

variable {t t' : PropertyTable}

theorem indexes_eq : t.indexes = (t.entries.map Prod.fst).filterMap Key.index? := by
  rw [List.filterMap_map]
  rfl

theorem nodup_indexes : t.indexes.Nodup := by
  rw [indexes_eq]
  refine t.nodup_keys.filterMap fun j k i hj hk => ?_
  cases j with
  | index j' =>
    cases k with
    | index k' =>
      cases hj
      cases hk
      rfl
    | _ => cases hk
  | _ => cases hj

/-- The keys depend on the order of the entries only. -/
theorem keys_congr (h : t.entries.map Prod.fst = t'.entries.map Prod.fst) : t.keys = t'.keys := by
  rw [keys, keys, indexes_eq, indexes_eq, names, names, symbols, symbols, h]

theorem pairwise_indexes : (t.indexes.mergeSort (· ≤ ·)).Pairwise (· < ·) := by
  have hle : (t.indexes.mergeSort (· ≤ ·)).Pairwise (· ≤ ·) := List.pairwise_mergeSort' (· ≤ ·) _
  have hne : (t.indexes.mergeSort (· ≤ ·)).Nodup := (List.mergeSort_perm _ _).nodup_iff.2 nodup_indexes
  exact (List.pairwise_and_iff.2 ⟨hle, hne⟩).imp fun h => Nat.lt_of_le_of_ne h.1 h.2

theorem rank_of_mem_names {k : Key} (hk : k ∈ t.names) : k.rank = 1 := by
  have hsort := (List.mem_filter.1 hk).2
  cases k with
  | name s => rfl
  | _ => cases hsort

theorem rank_of_mem_symbols {k : Key} (hk : k ∈ t.symbols) : k.rank = 2 := by
  have hsort := (List.mem_filter.1 hk).2
  cases k with
  | symbol s => rfl
  | _ => cases hsort

/-- **The keys of a table are listed in their order.** -/
theorem pairwise_keys {edits : List (SlotEdit Key Property)} (h : t.Records Eq id edits) :
    t.keys.Pairwise (Key.Precedes edits) := by
  have hordered : (t.entries.map Prod.fst).Pairwise (Earlier Eq edits) :=
    List.pairwise_map.2 h.ordered
  have hindexes : ∀ k ∈ (t.indexes.mergeSort (· ≤ ·)).map Key.index, k.rank = 0 := by
    intro k hk
    obtain ⟨i, -, rfl⟩ := List.mem_map.1 hk
    rfl
  rw [keys, List.append_assoc, List.pairwise_append, List.pairwise_append]
  refine ⟨List.pairwise_map.2 (pairwise_indexes.imp .index), ⟨?_, ?_, ?_⟩, ?_⟩
  · refine (hordered.filter _).imp_of_mem fun {j k} hj hk hearlier => ?_
    have hj := rank_of_mem_names hj
    have hk := rank_of_mem_names hk
    cases j <;> cases hj
    cases k <;> cases hk
    exact .name hearlier
  · refine (hordered.filter _).imp_of_mem fun {j k} hj hk hearlier => ?_
    have hj := rank_of_mem_symbols hj
    have hk := rank_of_mem_symbols hk
    cases j <;> cases hj
    cases k <;> cases hk
    exact .symbol hearlier
  · intro j hj k hk
    refine .sort ?_
    rw [rank_of_mem_names hj, rank_of_mem_symbols hk]
    decide
  · intro j hj k hk
    refine .sort ?_
    rw [hindexes j hj]
    rcases List.mem_append.1 hk with hk | hk
    · rw [rank_of_mem_names hk]
      decide
    · rw [rank_of_mem_symbols hk]
      decide

end Keys

/-- A table is what a history leaves: an insertion-ordered map. -/
structure Reflects (t : PropertyTable) (edits : List (SlotEdit Key Property)) : Prop where
  /-- A key leads to a cell exactly when an entry of that key stands there. -/
  indexed : ∀ k i, t.position? k = some i ↔ ∃ p, t.entryAt? i = some (k, p)
  /-- An empty table has no cells. -/
  cleared : t.isEmpty = true → t.extent = 0
  found : ∀ k p, t.find? k = some p ↔ Leaves Eq edits k p
  contained : ∀ k, t.contains k = true ↔ Present Eq edits k
  listed : ∀ k, k ∈ t.keys ↔ Present Eq edits k
  once : t.keys.Nodup
  counted : t.size = t.keys.length
  ordered : t.keys.Pairwise (Key.Precedes edits)
  /-- The indexes from a number on are the present ones, each once. -/
  indexesFrom : ∀ start, (t.indexesFrom start).Nodup ∧
    ∀ i, i ∈ t.indexesFrom start ↔ start ≤ i ∧ Present Eq edits (.index i)
  /-- Replacing a property moves nothing. -/
  replaced : ∀ k p, Present Eq edits k →
    (∀ k', (t.insert k p).position? k' = t.position? k') ∧ keys (t.insert k p) = t.keys ∧
      (t.insert k p).entries = t.entries.map fun e => if e.1 = k then (k, p) else e
  /-- A key that is removed and added again comes last. -/
  readded : ∀ k p, ((t.remove k).insert k p).entries = t.entries.filter (·.1 ≠ k) ++ [(k, p)]

/-- **A table reflects its history**, whatever edits it is made of. -/
theorem replay_reflects (edits : List (SlotEdit Key Property)) : (replay edits).Reflects edits := by
  have hrecords := records_replay edits
  generalize hreplay : replay edits = t at hrecords
  have hpresent (k : Key) : (t.find? k).isSome = true ↔ Present Eq edits k := by
    rw [Option.isSome_iff_exists]
    exact exists_congr (hrecords.left k)
  have hkeys := pairwise_keys hrecords
  have honce : t.keys.Nodup := hkeys.imp Key.Precedes.ne
  refine
    { indexed := fun k i => ?_
      cleared := fun hempty => hreplay ▸ extent_replay (hreplay ▸ hempty)
      found := hrecords.left
      contained := fun k => by rw [Slots.contains_eq, hpresent]
      listed := fun k => mem_keys.trans (hpresent k)
      once := honce
      counted := ?_
      ordered := hkeys
      indexesFrom := fun start => ⟨?_, fun i => ?_⟩
      replaced := fun k p hk => ?_
      readded := fun k p => ?_ }
  · rw [Slots.position?, t.indexed k i]
    simp [Slots.entryAt?, Option.join_eq_some_iff]
  · have hperm : t.keys.Perm (t.entries.map Prod.fst) := by
      refine (List.perm_ext_iff_of_nodup honce t.nodup_keys).2 fun k => ?_
      rw [mem_keys, Slots.mem_keys, Slots.contains_eq]
    rw [Slots.size_eq, hperm.length_eq, List.length_map]
  · exact (List.mergeSort_perm _ _).nodup_iff.2 (nodup_indexes.filter _)
  · rw [mem_indexesFrom, ← hpresent, Option.isSome_iff_exists]
  · have hsome := (hpresent k).2 hk
    have hentries := Slots.entries_insert_of_mem hsome p
    refine ⟨Slots.position?_insert t (by rw [Slots.contains_eq, hsome]) p, keys_congr ?_, hentries⟩
    rw [hentries, List.map_map]
    refine List.map_congr_left fun e _ => ?_
    by_cases he : e.1 = k <;> simp [he]
  · rw [Slots.entries_insert_of_not_mem (by rw [find?_remove, if_pos rfl]), entries_remove]

end PropertyTable

end ObjectModel
