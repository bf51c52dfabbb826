import Rehome.Proofs.Rpath.Tidy

/-!
# Entries that come back from their text

Reading a search path text cuts it at colons, and ignores blanks at its ends and empty entries. So
entries are lost if one of them is empty or has a colon in it, or if a blank begins the first or
ends the last of them, and in no other way (`parse_render_eq_iff`).
-/

namespace Rehome

namespace Text

variable {separator : Char} {parts : List Text}

theorem head?_joinWith (h : ∀ t ∈ parts, t ≠ []) :
    (joinWith separator parts).head? = parts.head?.bind List.head? := by
  cases parts with
  | nil => rfl
  | cons t parts =>
    obtain ⟨c, t, rfl⟩ := List.exists_cons_of_ne_nil (h t List.mem_cons_self)
    cases parts with
    | nil => simp
    | cons u parts => simp [joinWith, List.intercalate_cons_cons]

theorem getLast?_joinWith (h : ∀ t ∈ parts, t ≠ []) :
    (joinWith separator parts).getLast? = parts.getLast?.bind List.getLast? := by
  induction parts with
  | nil => rfl
  | cons t parts ih =>
    cases parts with
    | nil => simp
    | cons u parts =>
      have htail := ih fun v hv => h v (List.mem_cons_of_mem t hv)
      obtain ⟨v, hv⟩ := Option.ne_none_iff_exists'.1
        (mt List.getLast?_eq_none_iff.1 (List.cons_ne_nil u parts))
      have hvne : v ≠ [] := h v (List.mem_cons_of_mem t (List.mem_of_getLast? hv))
      obtain ⟨c, hc⟩ := Option.ne_none_iff_exists'.1 (mt List.getLast?_eq_none_iff.1 hvne)
      rw [hv, Option.bind_some, hc] at htail
      rw [joinWith, List.intercalate_cons_cons, List.getLast?_append, htail,
        List.getLast?_cons_cons, hv, Option.bind_some, hc]
      rfl

end Text

namespace Rpath

open Text

variable {entries : List Text} {tail : Text}

/-- Whether nothing in the entries can be taken for an end of one, or for a blank around their
text. -/
structure Recoverable (entries : List Text) : Prop where
  ne_nil : ∀ e ∈ entries, e ≠ []
  colon_notMem : ∀ e ∈ entries, ':' ∉ e
  first : ∀ e ∈ entries.head?, ∀ c ∈ e.head?, isBlank c = false
  last : ∀ e ∈ entries.getLast?, ∀ c ∈ e.getLast?, isBlank c = false

instance (entries : List Text) : Decidable (Recoverable entries) :=
  decidable_of_iff
    ((∀ e ∈ entries, e ≠ []) ∧ (∀ e ∈ entries, ':' ∉ e)
      ∧ (entries.head?.all fun e => e.head?.all fun c => !isBlank c) = true
      ∧ (entries.getLast?.all fun e => e.getLast?.all fun c => !isBlank c) = true) <| by
    simp only [Option.all_eq_true, Bool.not_eq_true']
    exact ⟨fun ⟨hne, hcolon, hfirst, hlast⟩ => ⟨hne, hcolon, hfirst, hlast⟩,
      fun ⟨hne, hcolon, hfirst, hlast⟩ => ⟨hne, hcolon, hfirst, hlast⟩⟩

/-- The text of entries has blank ends just if the first or the last of them has. -/
theorem trimBlank_render_eq_iff (h : ∀ e ∈ entries, e ≠ []) :
    (render entries).trimBlank = render entries
      ↔ (∀ e ∈ entries.head?, ∀ c ∈ e.head?, isBlank c = false)
        ∧ ∀ e ∈ entries.getLast?, ∀ c ∈ e.getLast?, isBlank c = false := by
  rw [trimBlank, trim_eq_self_iff, render, head?_joinWith h, getLast?_joinWith h]
  simp only [Option.mem_def, Option.bind_eq_some_iff]
  constructor
  · rintro ⟨hfirst, hlast⟩
    exact ⟨fun e he c hc => hfirst c ⟨e, he, hc⟩, fun e he c hc => hlast c ⟨e, he, hc⟩⟩
  · rintro ⟨hfirst, hlast⟩
    constructor
    · rintro c ⟨e, he, hc⟩
      exact hfirst e he c hc
    · rintro c ⟨e, he, hc⟩
      exact hlast e he c hc

theorem Recoverable.parse_render (h : Recoverable entries) : parse (render entries) = entries := by
  cases entries with
  | nil => rfl
  | cons e entries =>
    have hsplit : (render (e :: entries)).splitOn ':' = e :: entries :=
      List.splitOn_intercalate ':' h.colon_notMem (List.cons_ne_nil e entries)
    have htidy : IsTidy (render (e :: entries)) := by
      refine ⟨(trimBlank_render_eq_iff h.ne_nil).2 ⟨h.first, h.last⟩, ?_⟩
      rw [hsplit]
      exact fun hmem => h.ne_nil [] hmem rfl
    rw [parse_of_isTidy htidy, hsplit]

theorem recoverable_of_parse_render (h : parse (render entries) = entries) :
    Recoverable entries := by
  have hread : ∀ e ∈ entries, e ≠ [] ∧ ':' ∉ e := by
    intro e he
    rw [← h] at he
    obtain ⟨hmem, hne⟩ := List.mem_filter.1 he
    exact ⟨by simpa using hne, not_mem_of_mem_splitOn hmem⟩
  have hne : ∀ e ∈ entries, e ≠ [] := fun e he => (hread e he).1
  have htrim : (render entries).trimBlank = render entries := by
    by_cases hnil : render entries = []
    · rw [hnil]
      rfl
    · exact (isTidy_of_render_parse hnil (congrArg render h)).1
  obtain ⟨hfirst, hlast⟩ := (trimBlank_render_eq_iff hne).1 htrim
  exact ⟨hne, fun e he => (hread e he).2, hfirst, hlast⟩

/-- Entries come back from their text, alone or with blanks behind it, just if none of them is
empty or has a colon in it and their ends are not blank. -/
theorem parse_render_eq_iff (entries : List Text) :
    (parse (render entries) = entries ↔ Recoverable entries)
    ∧ ∀ tail : Text, (∀ c ∈ tail, isBlank c = true) →
      (parse (render entries ++ tail) = entries ↔ Recoverable entries) := by
  have hiff : parse (render entries) = entries ↔ Recoverable entries :=
    ⟨recoverable_of_parse_render, Recoverable.parse_render⟩
  refine ⟨hiff, fun tail ht => ?_⟩
  rw [parse_append_of_blank ht]
  exact hiff

/-- Blanks between two entries come back, but not a blank that ends the last one. -/
theorem parse_render_eq_iff_of_blanks :
    let tail : Text := [Char.ofNat 0x2003, '\n']
    let inner := ["/opt/my lib ".toList, " $ORIGIN".toList]
    let outer := [" $ORIGIN".toList, "/opt/my lib ".toList]
    (∀ c ∈ tail, isBlank c = true)
    ∧ (Recoverable inner ∧ parse (render inner ++ tail) = inner)
    ∧ ¬ Recoverable outer ∧ parse (render outer ++ tail) ≠ outer := by
  intro tail inner outer
  have ht : ∀ c ∈ tail, isBlank c = true := List.all_eq_true.1 (by decide)
  have hinner : Recoverable inner := by decide
  have houter : ¬ Recoverable outer := by decide
  exact ⟨ht, ⟨hinner, ((parse_render_eq_iff inner).2 tail ht).2 hinner⟩, houter,
    mt ((parse_render_eq_iff outer).2 tail ht).1 houter⟩

end Rpath

end Rehome
