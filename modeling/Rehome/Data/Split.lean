/-!
# Splitting lists

What the parts of a list that is split at separators are made of, and where in the list they are. A
list and its parts are built up together (`Parted`), one part after the other.
-/

namespace Rehome

variable {α : Type} {p : α → Bool} {xs part : List α} {parts : List (List α)}

/-- A list and its parts: there are no separators in them, and one between any two neighbours. -/
inductive Parted (p : α → Bool) : List α → List (List α) → Prop
  | last {part : List α} (hpart : ∀ x ∈ part, p x = false) : Parted p part [part]
  | cut {part xs : List α} {x : α} {parts : List (List α)} (hpart : ∀ x ∈ part, p x = false)
      (hx : p x = true) (hxs : Parted p xs parts) : Parted p (part ++ x :: xs) (part :: parts)

/-- The list may begin with some `front` in which no separator has been met yet. -/
theorem parted_splitOnP_append {front : List α} (hf : ∀ x ∈ front, p x = false) (xs : List α) :
    Parted p (front ++ xs) ((front ++ xs).splitOnP p) := by
  induction xs generalizing front with
  | nil =>
    rw [List.append_nil, List.splitOnP_eq_singleton hf]
    exact .last hf
  | cons x xs ih =>
    cases hx : p x with
    | true =>
      have hnil : ∀ x ∈ ([] : List α), p x = false := by simp
      rw [List.splitOnP_append_cons _ _ hx, List.splitOnP_eq_singleton hf]
      exact .cut hf hx (ih hnil)
    | false =>
      rw [List.append_cons]
      refine ih fun y hy => ?_
      obtain hy | hy := List.mem_append.1 hy
      · exact hf y hy
      · rwa [List.mem_singleton.1 hy]

theorem parted_splitOnP (p : α → Bool) (xs : List α) : Parted p xs (xs.splitOnP p) := by
  have hnil : ∀ x ∈ ([] : List α), p x = false := by simp
  exact parted_splitOnP_append hnil xs

/-- A part has separators or ends of the list on either side. -/
theorem Parted.exists_of_mem (h : Parted p xs parts) (hpart : part ∈ parts) :
    ∃ before behind, xs = before ++ (part ++ behind) ∧ (∀ x ∈ part, p x = false)
      ∧ (∀ x ∈ before.getLast?, p x = true) ∧ ∀ x ∈ behind.head?, p x = true := by
  induction h with
  | last hlast =>
    cases List.mem_singleton.1 hpart
    exact ⟨[], [], by simp, hlast, by simp, by simp⟩
  | @cut first xs x parts hfirst hx hxs ih =>
    obtain rfl | hpart := List.mem_cons.1 hpart
    · exact ⟨[], x :: xs, by simp, hfirst, by simp, by simpa using hx⟩
    · obtain ⟨before, behind, rfl, hpart, hbefore, hbehind⟩ := ih hpart
      refine ⟨first ++ x :: before, behind, by simp, hpart, ?_, hbehind⟩
      cases before with
      | nil => simpa using hx
      | cons y before => simpa using hbefore

/-- The parts of a list are what lies between two separators, or between one and an end. -/
theorem mem_splitOnP_iff :
    part ∈ xs.splitOnP p ↔ ∃ before behind, xs = before ++ (part ++ behind)
      ∧ (∀ x ∈ part, p x = false) ∧ (∀ x ∈ before.getLast?, p x = true)
      ∧ ∀ x ∈ behind.head?, p x = true := by
  constructor
  · exact (parted_splitOnP p xs).exists_of_mem
  · rintro ⟨before, behind, rfl, hpart, hbefore, hbehind⟩
    have hfirst : part ∈ (part ++ behind).splitOnP p := by
      cases behind with
      | nil => rw [List.append_nil, List.splitOnP_eq_singleton hpart, List.mem_singleton]
      | cons x behind =>
        rw [List.splitOnP_append_cons _ _ (hbehind x rfl), List.splitOnP_eq_singleton hpart]
        exact List.mem_cons_self
    obtain rfl | ⟨before, x, rfl⟩ := List.eq_nil_or_concat before
    · exact hfirst
    · rw [List.concat_eq_append] at hbefore ⊢
      rw [List.append_assoc, List.singleton_append,
        List.splitOnP_append_cons _ _ (hbefore x List.getLast?_concat)]
      exact List.mem_append_right _ hfirst

/-- No part of a split list contains the separator. -/
theorem not_mem_of_mem_splitOn [BEq α] [LawfulBEq α] {a : α} (h : part ∈ xs.splitOn a) :
    a ∉ part := by
  obtain ⟨-, -, -, hpart, -⟩ := mem_splitOnP_iff.1 h
  intro ha
  simpa using hpart a ha

end Rehome
