/-!
# Dropping repetitions

`List.eraseDups` leaves no repetitions (`nodup_eraseDups`) and nothing for a second pass to drop
(`eraseDups_of_nodup`). It can be exchanged with a function that tells the members of a list apart
(`eraseDups_map`), and what it drops before any function is dropped behind it anyway
(`eraseDups_map_eraseDups`). What it keeps stands in the order of first occurrences
(`idxOf_eraseDups_lt_iff`).
-/

namespace Rehome

variable {α : Type} [BEq α]

/-- Induction that goes from a list to its tail without the copies of the head, as `eraseDups`
does. -/
theorem eraseDups_induction {motive : List α → Prop} (nil : motive [])
    (cons : ∀ x xs, motive (xs.filter fun y => !y == x) → motive (x :: xs)) (xs : List α) :
    motive xs := by
  induction hn : xs.length using Nat.strongRecOn generalizing xs with
  | _ n ih =>
    cases xs with
    | nil => exact nil
    | cons x xs =>
      have hlen := List.length_filter_le (fun y => !y == x) xs
      rw [List.length_cons] at hn
      exact cons x xs (ih _ (by omega) _ rfl)

variable [LawfulBEq α]

theorem nodup_eraseDups (xs : List α) : xs.eraseDups.Nodup := by
  induction xs using eraseDups_induction with
  | nil => exact .nil
  | cons x xs ih =>
    rw [List.eraseDups_cons, List.nodup_cons]
    exact ⟨by simp, ih⟩

/-- A list without repetitions has nothing to drop. -/
theorem eraseDups_of_nodup {xs : List α} (h : xs.Nodup) : xs.eraseDups = xs := by
  induction xs with
  | nil => rfl
  | cons x xs ih =>
    obtain ⟨hx, hxs⟩ := List.nodup_cons.1 h
    have hkept : xs.filter (fun y => !y == x) = xs :=
      List.filter_eq_self.2 fun y hy => by simpa using fun e : y = x => hx (e ▸ hy)
    rw [List.eraseDups_cons, hkept, ih hxs]

/-- A function that tells the members of a list apart can be applied before or after repetitions are
dropped. -/
theorem eraseDups_map {β : Type} [BEq β] [LawfulBEq β] {f : α → β} {xs : List α}
    (h : ∀ x ∈ xs, ∀ y ∈ xs, f x = f y → x = y) :
    (xs.map f).eraseDups = xs.eraseDups.map f := by
  induction xs using eraseDups_induction with
  | nil => rfl
  | cons x xs ih =>
    have hkept : (xs.map f).filter (fun b => !b == f x) = (xs.filter fun b => !b == x).map f := by
      rw [List.filter_map]
      congr 1
      refine List.filter_congr fun y hy => ?_
      have hxy : f y = f x ↔ y = x :=
        ⟨h y (by simp [hy]) x (by simp), fun e => e ▸ rfl⟩
      rw [Function.comp_apply, Bool.eq_iff_iff]
      simp [hxy]
    have hsub : ∀ y ∈ xs.filter (fun b => !b == x), y ∈ x :: xs := fun y hy =>
      List.mem_cons_of_mem x (List.mem_filter.1 hy).1
    have htail := ih fun y hy z hz => h y (hsub y hy) z (hsub z hz)
    rw [List.map_cons, List.eraseDups_cons, List.eraseDups_cons, List.map_cons, hkept, htail]

/-- Repetitions can be dropped before or after other members are. -/
theorem eraseDups_filter (p : α → Bool) (xs : List α) :
    (xs.filter p).eraseDups = xs.eraseDups.filter p := by
  induction xs using eraseDups_induction with
  | nil => rfl
  | cons x xs ih =>
    rw [List.eraseDups_cons]
    by_cases hx : p x = true
    · rw [List.filter_cons_of_pos hx, List.eraseDups_cons, List.filter_cons_of_pos hx, ← ih]
      simp only [List.filter_filter, Bool.and_comm]
    · -- no copy of `x` is kept, so it makes no difference when they are dropped
      have hcopies : (xs.filter fun y => !y == x).filter p = xs.filter p := by
        rw [List.filter_filter]
        refine List.filter_congr fun y _ => ?_
        by_cases hy : y = x
        · simp [hy, hx]
        · simp [hy]
      rw [List.filter_cons_of_neg hx, List.filter_cons_of_neg hx, ← ih, hcopies]

/-- What repeats the image of another member is dropped behind a function, whether or not
repetitions were dropped before it. -/
theorem eraseDups_map_eraseDups {β : Type} [BEq β] [LawfulBEq β] (f : α → β) (xs : List α) :
    (xs.eraseDups.map f).eraseDups = (xs.map f).eraseDups := by
  induction xs using eraseDups_induction with
  | nil => rfl
  | cons x xs ih =>
    have himages : ((xs.filter fun y => !y == x).map f).filter (fun b => !b == f x)
        = (xs.map f).filter fun b => !b == f x := by
      rw [List.filter_map, List.filter_map, List.filter_filter]
      congr 1
      refine List.filter_congr fun y _ => ?_
      by_cases hy : y = x
      · simp [hy]
      · simp [hy]
    rw [List.eraseDups_cons, List.map_cons, List.map_cons, List.eraseDups_cons,
      List.eraseDups_cons, eraseDups_filter, ih, ← eraseDups_filter, himages]

/-- A member that has occurred before makes no difference. -/
theorem eraseDups_append_cons_of_mem {x : α} {xs : List α} (h : x ∈ xs) (ys : List α) :
    (xs ++ x :: ys).eraseDups = (xs ++ ys).eraseDups := by
  rw [List.eraseDups_append, List.eraseDups_append, List.removeAll, List.removeAll,
    List.filter_cons_of_neg (by simpa using h)]

/-- A last member is kept unless it has occurred before. -/
theorem eraseDups_concat (xs : List α) (x : α) :
    (xs ++ [x]).eraseDups = if x ∈ xs then xs.eraseDups else xs.eraseDups ++ [x] := by
  split
  · rename_i hx
    rw [eraseDups_append_cons_of_mem hx, List.append_nil]
  · rename_i hx
    rw [List.eraseDups_append, List.removeAll, List.filter_cons_of_pos (by simpa using hx)]
    rfl

/-! ## The order of first occurrences -/

/-- What stands first in two lists comes before all other members, so these decide. -/
theorem idxOf_cons_lt_congr {x y z : α} {xs ys : List α}
    (h : x ≠ z → y ≠ z → (xs.idxOf x < xs.idxOf y ↔ ys.idxOf x < ys.idxOf y)) :
    (z :: xs).idxOf x < (z :: xs).idxOf y ↔ (z :: ys).idxOf x < (z :: ys).idxOf y := by
  simp only [List.idxOf_cons]
  cases hy : z == y with
  | true => simp
  | false =>
    cases hx : z == x with
    | true => simp
    | false => simpa using h (Ne.symm (ne_of_beq_false hx)) (Ne.symm (ne_of_beq_false hy))

theorem idxOf_filter_lt_iff {p : α → Bool} {x y : α} (hx : p x = true) (hy : p y = true)
    (xs : List α) : (xs.filter p).idxOf x < (xs.filter p).idxOf y ↔ xs.idxOf x < xs.idxOf y := by
  induction xs with
  | nil => rfl
  | cons z xs ih =>
    by_cases hz : p z = true
    · rw [List.filter_cons_of_pos hz]
      exact idxOf_cons_lt_congr fun _ _ => ih
    · have hzx : (z == x) = false := beq_false_of_ne fun e => hz (e ▸ hx)
      have hzy : (z == y) = false := beq_false_of_ne fun e => hz (e ▸ hy)
      simpa [List.filter_cons_of_neg hz, List.idxOf_cons, hzx, hzy] using ih

/-- Without its repetitions a list has its members in the order in which they first occur. -/
theorem idxOf_eraseDups_lt_iff (xs : List α) (x y : α) :
    xs.eraseDups.idxOf x < xs.eraseDups.idxOf y ↔ xs.idxOf x < xs.idxOf y := by
  induction xs using eraseDups_induction with
  | nil => rfl
  | cons z xs ih =>
    rw [List.eraseDups_cons]
    refine idxOf_cons_lt_congr fun hx hy => ih.trans ?_
    exact idxOf_filter_lt_iff (by simpa using hx) (by simpa using hy) xs

end Rehome
