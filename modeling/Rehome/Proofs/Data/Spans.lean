import Mathlib.Logic.ExistsUnique
import Rehome.Data.Split

/-!
# Spans

A maximal run of elements of a kind contains every run of them that it touches
(`IsMaximalRun.contains`), so two maximal runs are equal or have something between them. The parts
of a list that is split at separators are, in the order of their offsets, its maximal runs of other
elements (`mem_ofParts_splitOnP_iff`): every part is one, and no offset is outside of all parts.
-/

namespace Rehome

/-- A part of a list: from the offset `start` up to the offset `stop`. -/
structure Span where
  start : Nat
  stop : Nat
  deriving DecidableEq, Repr

namespace Span

variable {α : Type} {q : α → Prop} {p : α → Bool} {xs before part behind : List α}
  {parts : List (List α)} {s t : Span}

/-! ## Runs -/

/-- A span inside a list, of elements that satisfy `q`. -/
structure IsRun (q : α → Prop) (xs : List α) (s : Span) : Prop where
  start_le : s.start ≤ s.stop
  stop_le : s.stop ≤ xs.length
  inside : ∀ k < s.stop, s.start ≤ k → ∀ x ∈ xs[k]?, q x

/-- A run with an element that does not satisfy `q`, or an end of the list, on either side. -/
structure IsMaximalRun (q : α → Prop) (xs : List α) (s : Span) : Prop extends IsRun q xs s where
  left : 0 < s.start → ∀ x ∈ xs[s.start - 1]?, ¬ q x
  right : ∀ x ∈ xs[s.stop]?, ¬ q x

/-- A maximal run contains the runs that it overlaps, or that end where it starts or start where it
ends. -/
theorem IsMaximalRun.contains (hs : s.IsMaximalRun q xs) (ht : t.IsRun q xs)
    (hstart : s.start ≤ t.stop) (hstop : t.start ≤ s.stop) :
    s.start ≤ t.start ∧ t.stop ≤ s.stop := by
  have hlen := ht.stop_le
  constructor
  · -- else `t` goes on to the left, over the element that bounds `s` there
    refine Nat.le_of_not_lt fun h => ?_
    have hx := List.getElem?_eq_getElem (show s.start - 1 < xs.length by omega)
    exact hs.left (by omega) _ hx (ht.inside _ (by omega) (by omega) _ hx)
  · refine Nat.le_of_not_lt fun h => ?_
    have hx := List.getElem?_eq_getElem (show s.stop < xs.length by omega)
    exact hs.right _ hx (ht.inside _ h hstop _ hx)

theorem IsMaximalRun.eq_of_touch (hs : s.IsMaximalRun q xs) (ht : t.IsMaximalRun q xs)
    (hstart : s.start ≤ t.stop) (hstop : t.start ≤ s.stop) : s = t := by
  obtain ⟨hst, hts⟩ := hs.contains ht.toIsRun hstart hstop
  obtain ⟨hts', hst'⟩ := ht.contains hs.toIsRun hstop hstart
  cases s
  cases t
  rw [mk.injEq]
  exact ⟨Nat.le_antisymm hst hts', Nat.le_antisymm hst' hts⟩

/-- Good elements between two bad ones, or between one and an end, are a maximal run. -/
theorem isMaximalRun_append (hpart : ∀ x ∈ part, q x) (hbefore : ∀ x ∈ before.getLast?, ¬ q x)
    (hbehind : ∀ x ∈ behind.head?, ¬ q x) :
    IsMaximalRun q (before ++ (part ++ behind))
      ⟨before.length, before.length + part.length⟩ where
  start_le := Nat.le_add_right _ _
  stop_le := by simp
  inside k hk hle x hx := by
    have hlt : k - before.length < part.length := Nat.sub_lt_left_of_lt_add hle hk
    rw [List.getElem?_append_right hle, List.getElem?_append_left hlt] at hx
    exact hpart x (List.mem_of_getElem? hx)
  left hpos x hx := by
    rw [List.getElem?_append_left (Nat.sub_lt hpos Nat.one_pos), ← List.getLast?_eq_getElem?] at hx
    exact hbefore x hx
  right x hx := by
    rw [List.getElem?_append_right (Nat.le_add_right _ _), Nat.add_sub_cancel_left,
      List.getElem?_append_right (Nat.le_refl _), Nat.sub_self, ← List.head?_eq_getElem?] at hx
    exact hbehind x hx

/-! ## Parts -/

/-- Where the parts of a list are if the first of them begins at `start`, and one separator stands
between any two neighbours. -/
def ofParts (start : Nat) : List (List α) → List Span
  | [] => []
  | part :: parts =>
    ⟨start, start + part.length⟩ :: ofParts (start + part.length + 1) parts

theorem le_start_of_mem_ofParts {start : Nat} (h : s ∈ ofParts start parts) : start ≤ s.start := by
  induction parts generalizing start with
  | nil => cases h
  | cons part parts ih =>
    obtain rfl | h := List.mem_cons.1 h
    · exact Nat.le_refl start
    · have hle := ih h
      omega

theorem pairwise_ofParts (start : Nat) (parts : List (List α)) :
    (ofParts start parts).Pairwise fun s t => s.stop < t.start := by
  induction parts generalizing start with
  | nil => exact .nil
  | cons part parts ih =>
    exact .cons (fun t ht => Nat.lt_of_succ_le (le_start_of_mem_ofParts ht)) (ih _)

/-- Every offset is in a part, or at the end of one. -/
theorem exists_mem_ofParts (h : Parted p xs parts) {start k : Nat} (hstart : start ≤ k)
    (hk : k ≤ start + xs.length) : ∃ s ∈ ofParts start parts, s.start ≤ k ∧ k ≤ s.stop := by
  induction h generalizing start with
  | last => exact ⟨_, List.mem_cons_self, hstart, hk⟩
  | @cut part xs x parts hpart hx hxs ih =>
    rw [List.length_append, List.length_cons] at hk
    by_cases hle : k ≤ start + part.length
    · exact ⟨_, List.mem_cons_self, hstart, hle⟩
    · obtain ⟨s, hs, hsk⟩ := ih (show start + part.length + 1 ≤ k by omega) (by omega)
      exact ⟨s, List.mem_cons_of_mem _ hs, hsk⟩

theorem append_cut (before part : List α) (x : α) (xs : List α) :
    before ++ (part ++ x :: xs) = (before ++ part ++ [x]) ++ xs := by simp

theorem length_cut (before part : List α) (x : α) :
    (before ++ part ++ [x]).length = before.length + part.length + 1 := by
  simp [Nat.add_assoc]

/-- The parts of what is behind a separator, or the whole list, are maximal runs. -/
theorem isMaximalRun_of_mem_ofParts (h : Parted p xs parts)
    (hbefore : ∀ x ∈ before.getLast?, p x = true) (hs : s ∈ ofParts before.length parts) :
    s.IsMaximalRun (p · = false) (before ++ xs) := by
  have hbad : ∀ x ∈ before.getLast?, ¬ p x = false := fun x hx => by simp [hbefore x hx]
  induction h generalizing before with
  | @last part hpart =>
    cases List.mem_singleton.1 hs
    have hend : ∀ x ∈ ([] : List α).head?, ¬ p x = false := by simp
    have hrun := isMaximalRun_append hpart hbad hend
    rwa [List.append_nil] at hrun
  | @cut part xs x parts hpart hx hxs ih =>
    obtain rfl | hs := List.mem_cons.1 hs
    · exact isMaximalRun_append hpart hbad (by simp [hx])
    · rw [append_cut]
      rw [← length_cut before part x] at hs
      exact ih (by simp [hx]) hs (by simp [hx])

theorem extract_append (before part behind : List α) :
    (before ++ (part ++ behind)).extract before.length (before.length + part.length) = part := by
  rw [List.extract, List.drop_left, Nat.add_sub_cancel_left, List.take_left]

theorem map_extract_ofParts (h : Parted p xs parts) (before : List α) :
    (ofParts before.length parts).map (fun s => (before ++ xs).extract s.start s.stop)
      = parts := by
  induction h generalizing before with
  | @last part hpart =>
    have hpart := extract_append before part []
    rw [List.append_nil] at hpart
    exact congrArg ([·]) hpart
  | @cut part xs x parts hpart hx hxs ih =>
    have htail := ih (before ++ part ++ [x])
    rw [← append_cut, length_cut] at htail
    rw [ofParts, List.map_cons, htail, extract_append]

section

variable (hq : ∀ x, p x = false ↔ q x)

include hq

theorem isMaximalRun_of_mem_splitOnP (hs : s ∈ ofParts 0 (xs.splitOnP p)) :
    s.IsMaximalRun q xs := by
  obtain rfl : (p · = false) = q := funext fun x => propext (hq x)
  have hnil : ∀ x ∈ ([] : List α).getLast?, p x = true := by simp
  exact isMaximalRun_of_mem_ofParts (parted_splitOnP p xs) hnil hs

/-- A run of elements other than separators is inside a part. -/
theorem exists_mem_ofParts_contains (ht : t.IsRun q xs) :
    ∃ s ∈ ofParts 0 (xs.splitOnP p), s.start ≤ t.start ∧ t.stop ≤ s.stop := by
  have hlen := Nat.le_trans ht.start_le ht.stop_le
  obtain ⟨s, hmem, hst, hts⟩ :=
    exists_mem_ofParts (parted_splitOnP p xs) (Nat.zero_le t.start) (by omega)
  have hs := isMaximalRun_of_mem_splitOnP hq hmem
  exact ⟨s, hmem, hs.contains ht (Nat.le_trans hst ht.start_le) hts⟩

/-- The parts between separators are the maximal runs of other elements. -/
theorem mem_ofParts_splitOnP_iff : s ∈ ofParts 0 (xs.splitOnP p) ↔ s.IsMaximalRun q xs := by
  refine ⟨isMaximalRun_of_mem_splitOnP hq, fun hs => ?_⟩
  obtain ⟨t, hmem, hts, hst⟩ := exists_mem_ofParts_contains hq hs.toIsRun
  have hle := hs.start_le
  rwa [hs.eq_of_touch (isMaximalRun_of_mem_splitOnP hq hmem) (by omega) (by omega)]

end

/-- A run is inside just one maximal run. -/
theorem IsRun.existsUnique_contains [DecidablePred q] (ht : t.IsRun q xs) :
    ∃! s : Span, s.IsMaximalRun q xs ∧ s.start ≤ t.start ∧ t.stop ≤ s.stop := by
  have hq : ∀ x, (!decide (q x)) = false ↔ q x := by simp
  obtain ⟨s, hmem, hst⟩ := exists_mem_ofParts_contains hq ht
  have hs := isMaximalRun_of_mem_splitOnP hq hmem
  have hle := ht.start_le
  refine ⟨s, ⟨hs, hst⟩, fun u ⟨hu, hut⟩ => hu.eq_of_touch hs ?_ ?_⟩
  · omega
  · omega

theorem IsRun.length_extract (hs : s.IsRun q xs) :
    (xs.extract s.start s.stop).length = s.stop - s.start := by
  have hstop := hs.stop_le
  simp only [List.extract, List.length_take, List.length_drop]
  omega

end Span

end Rehome
