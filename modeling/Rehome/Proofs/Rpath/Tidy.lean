import Rehome.Rpath.Basic
import Rehome.Data.Split

/-!
# Tidy search paths

A search path text is tidy if reading it ignores nothing in it: there are no blanks at its ends, and
no entry is empty. Just such texts are what rendering makes of their entries
(`render_parse_eq_iff`).
-/

namespace Rehome

open Text

/-- What is joined from some of the parts is a part of what is joined from all. -/
theorem Text.joinWith_sublist {separator : Char} {parts parts' : List Text}
    (h : parts.Sublist parts') :
    (joinWith separator parts).Sublist (joinWith separator parts') := by
  induction h with
  | slnil => exact .slnil
  | @cons parts parts' s h ih =>
    cases parts' with
    | nil =>
      obtain rfl := List.sublist_nil.1 h
      exact List.nil_sublist _
    | cons u parts' =>
      rw [joinWith, joinWith, List.intercalate_cons_cons]
      exact ih.trans (List.sublist_append_right _ _)
  | @cons_cons parts parts' s h ih =>
    by_cases he : parts' = []
    · subst he
      obtain rfl := List.sublist_nil.1 h
      exact .refl _
    · rw [joinWith, joinWith, List.intercalate_cons_of_ne_nil he]
      by_cases hp : parts = []
      · rw [hp, List.intercalate_singleton, List.append_assoc]
        exact List.sublist_append_left _ _
      · rw [List.intercalate_cons_of_ne_nil hp]
        exact ih.append_left _

namespace Rpath

variable {t tail : Text}

/-- Whether a search path text has no blanks at its ends and no empty entry. -/
def IsTidy (t : Text) : Prop := t.trimBlank = t ∧ [] ∉ t.splitOn ':'

instance (t : Text) : Decidable (IsTidy t) := inferInstanceAs (Decidable (_ ∧ _))

/-- Blanks behind a search path text are not read. -/
theorem parse_append_of_blank (h : ∀ c ∈ tail, isBlank c = true) : parse (t ++ tail) = parse t := by
  rw [parse, trimBlank, trim_append_right h]
  rfl

theorem parse_of_isTidy (h : IsTidy t) : parse t = t.splitOn ':' := by
  rw [parse, h.1]
  refine List.filter_eq_self.2 fun entry hmem => ?_
  have hne : entry ≠ [] := fun e => h.2 (e ▸ hmem)
  simpa using hne

/-- What rendering writes has no empty entry, and is no longer than the text without its blanks. -/
theorem isTidy_of_render_parse (hne : t ≠ []) (h : render (parse t) = t) : IsTidy t := by
  have hcolon : ∀ entry ∈ parse t, ':' ∉ entry := fun entry hmem =>
    not_mem_of_mem_splitOn (List.mem_filter.1 hmem).1
  have hsome : parse t ≠ [] := by
    intro e
    rw [e] at h
    exact hne h.symm
  constructor
  · have hsub : (render (parse t)).Sublist (joinWith ':' (t.trimBlank.splitOn ':')) :=
      joinWith_sublist List.filter_sublist
    rw [joinWith, List.intercalate_splitOn] at hsub
    rw [h] at hsub
    exact trim_sublist.eq_of_length_le hsub.length_le
  · have hsplit : (render (parse t)).splitOn ':' = parse t :=
      List.splitOn_intercalate ':' hcolon hsome
    rw [h] at hsplit
    rw [hsplit]
    simp [parse]

/-- Just the tidy texts are what rendering makes of their entries. -/
theorem render_parse_eq_iff (hne : t ≠ []) : render (parse t) = t ↔ IsTidy t := by
  refine ⟨isTidy_of_render_parse hne, fun h => ?_⟩
  rw [parse_of_isTidy h]
  exact List.intercalate_splitOn ':'

end Rpath

end Rehome
