import Mathlib.Data.Finset.Card
import Rehome.Data.OrderedMap
import Rehome.Proofs.Data.Repetition

/-!
# Maps and their insertions

What a map holds is a matter of the insertions that it has seen (`Reflects`): at each key the value
inserted last, and the keys in the order in which they were first inserted. One more insertion keeps
it so (`Reflects.insert`), and so does any number of them (`insertAll_insertion_ordered`).
-/

namespace Rehome.OrderedMap

variable {κ α : Type} {m : OrderedMap κ α} {ps : List (κ × α)} {j k : κ} {u v : α}

/-- Whether `v` is what was inserted last at `k`. -/
def LastAt (ps : List (κ × α)) (k : κ) (v : α) : Prop :=
  ∃ before after, ps = before ++ (k, v) :: after ∧ k ∉ after.map Prod.fst

/-- One more insertion is the last one at its key, and changes nothing at others. -/
theorem lastAt_concat :
    LastAt (ps ++ [(j, u)]) k v ↔ (k = j ∧ v = u) ∨ (k ≠ j ∧ LastAt ps k v) := by
  constructor
  · rintro ⟨before, after, heq, hk⟩
    obtain rfl | ⟨after, last, rfl⟩ := List.eq_nil_or_concat' after
    · obtain ⟨-, hlast⟩ := List.append_inj' heq rfl
      cases hlast
      exact .inl ⟨rfl, rfl⟩
    · rw [← List.cons_append, ← List.append_assoc] at heq
      obtain ⟨rfl, hlast⟩ := List.append_inj' heq rfl
      cases hlast
      rw [List.map_append, List.mem_append, not_or] at hk
      exact .inr ⟨by simpa using hk.2, before, after, rfl, hk.1⟩
  · rintro (⟨rfl, rfl⟩ | ⟨hne, before, after, rfl, hk⟩)
    · exact ⟨ps, [], rfl, List.not_mem_nil⟩
    · exact ⟨before, after ++ [(j, u)], by simp, by simp [hne, hk]⟩

variable [DecidableEq κ]

/-- What a map holds that has seen these insertions, and no others. -/
structure Reflects (m : OrderedMap κ α) (ps : List (κ × α)) : Prop where
  get?_eq_some_iff : ∀ k v, m.get? k = some v ↔ LastAt ps k v
  keys_eq : m.keys = (ps.map Prod.fst).eraseDups

theorem reflects_empty : (empty : OrderedMap κ α).Reflects [] :=
  ⟨fun k v => by simp [LastAt], rfl⟩

namespace Reflects

variable (h : m.Reflects ps)

include h

/-- A map that sees one more insertion reflects it. -/
theorem insert (k : κ) (v : α) : (m.insert k v).Reflects (ps ++ [(k, v)]) where
  get?_eq_some_iff j u := by
    rw [get?_insert, lastAt_concat]
    by_cases hj : j = k
    · simp [hj, eq_comm]
    · simp [hj, h.get?_eq_some_iff]
  keys_eq := by
    rw [keys_insert, h.keys_eq, List.map_append, List.map_singleton, eraseDups_concat]
    simp only [List.mem_eraseDups]

theorem insertAll (qs : List (κ × α)) : (m.insertAll qs).Reflects (ps ++ qs) := by
  induction qs generalizing m ps with
  | nil =>
    rw [List.append_nil]
    exact h
  | cons q qs ih =>
    rw [List.append_cons]
    exact ih (h.insert q.1 q.2)

theorem keys_nodup : m.keys.Nodup := by
  rw [h.keys_eq]
  exact nodup_eraseDups _

theorem get?_eq_none_iff (k : κ) : m.get? k = none ↔ k ∉ ps.map Prod.fst := by
  rw [← List.mem_eraseDups, ← h.keys_eq, mem_keys_iff, Option.eq_none_iff_forall_ne_some,
    not_exists]

theorem idxOf_keys_lt_iff (j k : κ) : m.keys.idxOf j < m.keys.idxOf k ↔
    (ps.map Prod.fst).idxOf j < (ps.map Prod.fst).idxOf k := by
  rw [h.keys_eq, idxOf_eraseDups_lt_iff]

theorem size_eq : m.size = (ps.map Prod.fst).toFinset.card := by
  have hsame : m.keys.toFinset = (ps.map Prod.fst).toFinset := by
    ext k
    rw [List.mem_toFinset, List.mem_toFinset, h.keys_eq, List.mem_eraseDups]
  rw [← hsame, List.toFinset_card_of_nodup h.keys_nodup, keys, List.length_map, size]

end Reflects

/-- A map that is collected from a list of pairs and sees further insertions has no key twice. At
each key it has the value inserted last, and none where there was no insertion. The next insertion
gives back what was there before and changes nothing at other keys. The pairs are the keys with
their values, in the order of the first insertions, as many as there are different keys. And a map
is told from others by its pairs. -/
theorem insertAll_insertion_ordered (ps qs : List (κ × α)) (n : OrderedMap κ α) :
    let m := (ofList ps).insertAll qs
    let inserted := (ps ++ qs).map Prod.fst
    m.keys.Nodup
    ∧ (∀ k, (∀ v, m.get? k = some v ↔ LastAt (ps ++ qs) k v)
      ∧ (m.get? k = none ↔ k ∉ inserted))
    ∧ (∀ k v, m.exchange k v = (m.get? k, (ofList ps).insertAll (qs ++ [(k, v)]))
      ∧ ∀ j, (m.insert k v).get? j = if j = k then some v else m.get? j)
    ∧ (∀ k v, (k, v) ∈ m.pairs ↔ m.get? k = some v)
    ∧ (∀ j k, m.keys.idxOf j < m.keys.idxOf k ↔ inserted.idxOf j < inserted.idxOf k)
    ∧ m.size = inserted.toFinset.card
    ∧ (m = n ↔ m.pairs = n.pairs) := by
  intro m inserted
  have h : m.Reflects (ps ++ qs) := (reflects_empty.insertAll ps).insertAll qs
  refine ⟨h.keys_nodup, fun k => ⟨h.get?_eq_some_iff k, h.get?_eq_none_iff k⟩,
    fun k v => ⟨Prod.ext (exchange_fst m k v) ?_, get?_insert m k v⟩,
    fun k v => get?_eq_some_iff.symm, h.idxOf_keys_lt_iff, h.size_eq,
    ⟨congrArg pairs, ext_pairs⟩⟩
  simp only [insertAll, List.foldl_append]
  rfl

/-- A value that takes the place of another one stays in that place. -/
example : (ofList [('a', 1), ('b', 2), ('a', 3)]).pairs = [('a', 3), ('b', 2)] := by decide

end Rehome.OrderedMap
