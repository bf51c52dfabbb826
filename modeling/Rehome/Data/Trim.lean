/-!
# Trimming lists

`trimRight p xs` drops the longest end of `xs` whose members satisfy `p`; `trim p xs` also drops
the longest such beginning.
-/

namespace Rehome

/-- `xs` without the longest end of members that satisfy `p`. -/
def trimRight {α : Type} (p : α → Bool) : List α → List α
  | [] => []
  | x :: xs =>
    match trimRight p xs with
    | [] => if p x then [] else [x]
    | y :: ys => x :: y :: ys

/-- `xs` without the longest beginning and the longest end of members that satisfy `p`. -/
def trim {α : Type} (p : α → Bool) (xs : List α) : List α :=
  trimRight p (xs.dropWhile p)

section

variable {α : Type} {p : α → Bool} {x : α} {xs : List α}

@[simp] theorem trimRight_nil : trimRight p [] = [] := rfl

theorem trimRight_concat : trimRight p (xs ++ [x]) = if p x then trimRight p xs else xs ++ [x] := by
  induction xs with
  | nil => rfl
  | cons y ys ih =>
    simp only [List.cons_append, trimRight, ih]
    by_cases h : p x
    · simp [h]
    · cases ys <;> simp [h]

/-- Nothing is dropped from a list whose last member is to be kept. -/
theorem trimRight_concat_of_not (h : p x = false) : trimRight p (xs ++ [x]) = xs ++ [x] := by
  simp [trimRight_concat, h]

theorem trimRight_append {tail : List α} (h : ∀ x ∈ tail, p x = true) :
    trimRight p (xs ++ tail) = trimRight p xs := by
  induction tail generalizing xs with
  | nil => rw [List.append_nil]
  | cons y ys ih =>
    obtain ⟨hy, hys⟩ := List.forall_mem_cons.1 h
    have hsplit : xs ++ y :: ys = (xs ++ [y]) ++ ys := by simp
    rw [hsplit, ih hys, trimRight_concat, if_pos hy]

/-- Behind a list whose first and last members are to be kept, all that can be dropped is. -/
theorem trim_append {tail : List α} (hfirst : ∀ x, xs.head? = some x → p x = false)
    (hlast : ∀ x, xs.getLast? = some x → p x = false) (ht : ∀ x ∈ tail, p x = true) :
    trim p (xs ++ tail) = xs := by
  rcases List.eq_nil_or_concat xs with rfl | ⟨init, x, rfl⟩
  · have hd : (tail ++ []).dropWhile p = [] := List.dropWhile_append_of_pos ht
    rw [trim, List.nil_append, ← List.append_nil tail, hd, trimRight_nil]
  · rw [List.concat_eq_append] at hfirst hlast ⊢
    have hd : (init ++ [x] ++ tail).dropWhile p = init ++ [x] ++ tail := by
      cases init with
      | nil => exact List.dropWhile_cons_of_neg (by simp [hfirst x rfl])
      | cons y ys => exact List.dropWhile_cons_of_neg (by simp [hfirst y rfl])
    rw [trim, hd, trimRight_append ht]
    exact trimRight_concat_of_not (hlast x List.getLast?_concat)

/-- What can be dropped at the end makes no difference. -/
theorem trim_append_right {tail : List α} (h : ∀ x ∈ tail, p x = true) :
    trim p (xs ++ tail) = trim p xs := by
  rw [trim, trim, List.dropWhile_append]
  split
  · rename_i hxs
    have htail : (tail ++ []).dropWhile p = [] := List.dropWhile_append_of_pos h
    rw [List.append_nil] at htail
    rw [List.isEmpty_iff.1 hxs, htail]
  · exact trimRight_append h

theorem trimRight_prefix : trimRight p xs <+: xs := by
  induction xs with
  | nil => exact List.nil_prefix
  | cons y ys ih =>
    unfold trimRight
    split
    · split
      · exact List.nil_prefix
      · exact (List.prefix_cons_inj y).2 List.nil_prefix
    · rename_i z zs h
      exact (List.prefix_cons_inj y).2 (h ▸ ih)

theorem trimRight_sublist : (trimRight p xs).Sublist xs := trimRight_prefix.sublist

theorem trim_sublist : (trim p xs).Sublist xs :=
  trimRight_sublist.trans (List.dropWhile_sublist p)

/-- What stands first after trimming is to be kept. -/
theorem eq_false_of_head?_trim (h : (trim p xs).head? = some x) : p x = false := by
  have hd := List.head?_dropWhile_not p xs
  obtain ⟨ys, hys⟩ := List.head?_eq_some_iff.1 h
  obtain ⟨zs, hzs⟩ : trim p xs <+: xs.dropWhile p := trimRight_prefix
  rw [← hzs, hys] at hd
  exact hd

section

variable {β : Type} {f : α → Option β}

theorem filterMap_trimRight (h : ∀ x, p x = true → f x = none) :
    (trimRight p xs).filterMap f = xs.filterMap f := by
  induction xs with
  | nil => rfl
  | cons y ys ih =>
    unfold trimRight
    split
    · rename_i e
      rw [e] at ih
      split
      · rename_i hy
        rw [List.filterMap_cons_none (h y hy), ← ih]
      · rw [List.filterMap_cons, ih, ← List.filterMap_cons]
    · rename_i z zs e
      rw [← e, List.filterMap_cons, ih, ← List.filterMap_cons]

/-- Trimming makes no difference to a filter that drops as much. -/
theorem filterMap_trim (h : ∀ x, p x = true → f x = none) :
    (trim p xs).filterMap f = xs.filterMap f := by
  rw [trim, filterMap_trimRight h]
  induction xs with
  | nil => rfl
  | cons y ys ih =>
    by_cases hy : p y = true
    · rw [List.dropWhile_cons_of_pos hy, ih, List.filterMap_cons_none (h y hy)]
    · rw [List.dropWhile_cons_of_neg hy]

end

/-- Just the lists whose first and last members are to be kept have nothing to drop. -/
theorem trim_eq_self_iff :
    trim p xs = xs ↔ (∀ x ∈ xs.head?, p x = false) ∧ ∀ x ∈ xs.getLast?, p x = false := by
  constructor
  · intro h
    refine ⟨fun x hx => Bool.eq_false_iff.2 fun hp => ?_,
      fun x hx => Bool.eq_false_iff.2 fun hp => ?_⟩
    · obtain ⟨ys, rfl⟩ := List.head?_eq_some_iff.1 hx
      have hsub : (trim p (x :: ys)).Sublist ys := by
        rw [trim, List.dropWhile_cons_of_pos hp]
        exact trim_sublist
      rw [h] at hsub
      have hlen := hsub.length_le
      rw [List.length_cons] at hlen
      omega
    · obtain ⟨ys, rfl⟩ := List.getLast?_eq_some_iff.1 hx
      have hdrop : trim p (ys ++ [x]) = trim p ys :=
        trim_append_right (List.forall_mem_singleton.2 hp)
      have hsub : (trim p ys).Sublist ys := trim_sublist
      have hlen := hsub.length_le
      rw [← hdrop, h, List.length_append, List.length_singleton] at hlen
      omega
  · rintro ⟨hfirst, hlast⟩
    have htrim : trim p (xs ++ []) = xs := trim_append hfirst hlast (List.forall_mem_nil _)
    rwa [List.append_nil] at htrim

end

end Rehome
