/-!
# Insertion-ordered maps

A finite map that lists its pairs in the order in which their keys were first inserted. Inserting
at a key that is present replaces the value in place.
-/

namespace Rehome

/-- A finite map whose pairs stand in the order of their first insertion. -/
structure OrderedMap (κ α : Type) where
  /-- The pairs, oldest key first. -/
  pairs : List (κ × α)
  /-- No key occurs twice. -/
  keys_nodup : (pairs.map Prod.fst).Nodup
  deriving DecidableEq, Repr

namespace OrderedMap

variable {κ α : Type}

instance : Inhabited (OrderedMap κ α) := ⟨⟨[], .nil⟩⟩

theorem ext_pairs {m n : OrderedMap κ α} (h : m.pairs = n.pairs) : m = n := by
  cases m; cases n; cases h; rfl

def empty : OrderedMap κ α := ⟨[], .nil⟩

def keys (m : OrderedMap κ α) : List κ := m.pairs.map Prod.fst

def size (m : OrderedMap κ α) : Nat := m.pairs.length

def isEmpty (m : OrderedMap κ α) : Bool := m.pairs.isEmpty

/-- The map with another value at each key. -/
def mapValues {β : Type} (f : α → β) (m : OrderedMap κ α) : OrderedMap κ β where
  pairs := m.pairs.map fun p => (p.1, f p.2)
  keys_nodup := by
    rw [List.map_map]
    exact m.keys_nodup

variable [DecidableEq κ]

/-- The value of the first pair with key `k`. -/
def find? (k : κ) : List (κ × α) → Option α
  | [] => none
  | (k', v) :: rest => if k' = k then some v else find? k rest

def get? (m : OrderedMap κ α) (k : κ) : Option α := find? k m.pairs

/-- Puts `v` at `k` in a list of pairs, and gives the value that it takes the place of. -/
def put (k : κ) (v : α) : List (κ × α) → Option α × List (κ × α)
  | [] => (none, [(k, v)])
  | (k', v') :: rest =>
    if k' = k then (some v', (k, v) :: rest)
    else ((put k v rest).1, (k', v') :: (put k v rest).2)

theorem put_fst (k : κ) (v : α) (ps : List (κ × α)) : (put k v ps).1 = find? k ps := by
  induction ps with
  | nil => rfl
  | cons p ps ih => by_cases h : p.1 = k <;> simp [put, find?, h, ih]

theorem keys_put (k : κ) (v : α) (ps : List (κ × α)) :
    (put k v ps).2.map Prod.fst =
      if k ∈ ps.map Prod.fst then ps.map Prod.fst else ps.map Prod.fst ++ [k] := by
  induction ps with
  | nil => rfl
  | cons p ps ih =>
    by_cases h : p.1 = k
    · simp [put, h]
    · have h' : ¬ k = p.1 := fun e => h e.symm
      simp only [put, h, if_false, List.map_cons, ih, List.mem_cons, h', false_or]
      split <;> rfl

theorem nodup_put {k : κ} {v : α} {ps : List (κ × α)} (h : (ps.map Prod.fst).Nodup) :
    ((put k v ps).2.map Prod.fst).Nodup := by
  rw [keys_put]
  split
  · exact h
  · rename_i hk
    exact List.nodup_append.2
      ⟨h, by simp, by simpa using fun a x hx e => hk (by simp; exact ⟨x, e ▸ hx⟩)⟩

/-- Puts `v` at `k`: the value that was there before, and the new map. -/
def exchange (m : OrderedMap κ α) (k : κ) (v : α) : Option α × OrderedMap κ α :=
  ((put k v m.pairs).1, ⟨(put k v m.pairs).2, nodup_put m.keys_nodup⟩)

def insert (m : OrderedMap κ α) (k : κ) (v : α) : OrderedMap κ α := (m.exchange k v).2

def insertAll (m : OrderedMap κ α) (ps : List (κ × α)) : OrderedMap κ α :=
  ps.foldl (fun m p => m.insert p.1 p.2) m

def ofList (ps : List (κ × α)) : OrderedMap κ α := empty.insertAll ps

def filterKeys (m : OrderedMap κ α) (p : κ → Bool) : OrderedMap κ α :=
  ⟨m.pairs.filter fun q => p q.1,
    m.keys_nodup.sublist ((List.filter_sublist).map Prod.fst)⟩

/-! ## What `get?` sees -/

theorem find?_put (k : κ) (v : α) (ps : List (κ × α)) (j : κ) :
    find? j (put k v ps).2 = if j = k then some v else find? j ps := by
  induction ps with
  | nil => by_cases h : k = j <;> simp [put, find?, h, eq_comm]
  | cons p ps ih =>
    by_cases h : p.1 = k
    · by_cases hj : j = k
      · simp [put, find?, h, hj]
      · have hj' : ¬ k = j := fun e => hj e.symm
        simp [put, find?, h, hj, hj']
    · by_cases hj : p.1 = j
      · have hk : ¬ j = k := fun e => h (hj.trans e)
        simp [put, find?, hj, hk]
      · simp [put, find?, h, hj, ih]

@[simp] theorem get?_empty (k : κ) : (empty : OrderedMap κ α).get? k = none := rfl

/-- Insertion changes the value at its own key only. -/
theorem get?_insert (m : OrderedMap κ α) (k : κ) (v : α) (j : κ) :
    (m.insert k v).get? j = if j = k then some v else m.get? j :=
  find?_put k v m.pairs j

/-- The value that an exchange gives back is the one seen just before. -/
theorem exchange_fst (m : OrderedMap κ α) (k : κ) (v : α) : (m.exchange k v).1 = m.get? k :=
  put_fst k v m.pairs

theorem find?_eq_some_iff {ps : List (κ × α)} (h : (ps.map Prod.fst).Nodup) {k : κ} {v : α} :
    find? k ps = some v ↔ (k, v) ∈ ps := by
  induction ps with
  | nil => simp [find?]
  | cons p ps ih =>
    obtain ⟨hp, hps⟩ := List.nodup_cons.1 h
    by_cases hk : p.1 = k
    · subst hk
      have hout : (p.1, v) ∉ ps := fun hm => hp (List.mem_map.2 ⟨_, hm, rfl⟩)
      simp only [find?, if_true, Option.some.injEq, List.mem_cons, hout, or_false]
      exact ⟨fun e => by rw [← e], fun e => (congrArg Prod.snd e).symm⟩
    · have hne : (k, v) ≠ p := fun e => hk (congrArg Prod.fst e).symm
      simp only [find?, if_neg hk, ih hps, List.mem_cons, hne, false_or]

/-- A map sees each of its pairs, since no key hides another. -/
theorem get?_eq_some_iff {m : OrderedMap κ α} {k : κ} {v : α} :
    m.get? k = some v ↔ (k, v) ∈ m.pairs :=
  find?_eq_some_iff m.keys_nodup

theorem mem_keys_iff {m : OrderedMap κ α} {k : κ} : k ∈ m.keys ↔ ∃ v, m.get? k = some v := by
  simp only [get?_eq_some_iff, keys, List.mem_map, Prod.exists, exists_and_right, exists_eq_right]

theorem mem_keys_of_mem {m : OrderedMap κ α} {k : κ} {v : α} (h : (k, v) ∈ m.pairs) : k ∈ m.keys :=
  mem_keys_iff.2 ⟨v, get?_eq_some_iff.2 h⟩

theorem find?_map {β : Type} (f : α → β) (ps : List (κ × α)) (k : κ) :
    find? k (ps.map fun p => (p.1, f p.2)) = (find? k ps).map f := by
  induction ps with
  | nil => rfl
  | cons p ps ih => by_cases h : p.1 = k <;> simp [find?, h, ih]

theorem get?_mapValues {β : Type} (f : α → β) (m : OrderedMap κ α) (k : κ) :
    (m.mapValues f).get? k = (m.get? k).map f :=
  find?_map f m.pairs k

/-- A key joins the end of the keys unless it is present. -/
theorem keys_insert (m : OrderedMap κ α) (k : κ) (v : α) :
    (m.insert k v).keys = if k ∈ m.keys then m.keys else m.keys ++ [k] :=
  keys_put k v m.pairs

end OrderedMap

end Rehome
