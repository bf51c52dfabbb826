import Rehome.Path.Relative
import Rehome.Path.NormalForm
import Rehome.Text.Blank

/-!
# Clean paths

A text is clean if nothing in it can be taken for an end of an entry: it has neither colons nor
blanks. Operations on paths write slashes and dots, and otherwise only what they were given, so they
make clean paths of clean ones (`clean_normalize`, `clean_directory`, `clean_join`, `clean_below?`).
-/

namespace Rehome

namespace Text

/-- Whether a text has neither colons nor blanks. -/
def Clean (t : Text) : Prop := ∀ c ∈ t, c ≠ ':' ∧ isBlank c = false

instance (t : Text) : Decidable t.Clean := List.decidableBAll _ t

variable {s t : Text} {parts : List Text} {separator : Char}

theorem Clean.of_subset (h : t.Clean) (hs : s ⊆ t) : s.Clean := fun c hc => h c (hs hc)

theorem Clean.append (hs : s.Clean) (ht : t.Clean) : (s ++ t).Clean := by
  intro c hc
  obtain hc | hc := List.mem_append.1 hc
  · exact hs c hc
  · exact ht c hc

theorem Clean.slash_cons (h : t.Clean) : Clean ('/' :: t) :=
  Clean.append (s := ['/']) (by decide) h

theorem subset_joinWith (separator : Char) (ht : t ∈ parts) : t ⊆ joinWith separator parts := by
  induction parts with
  | nil => cases ht
  | cons s parts ih =>
    cases parts with
    | nil =>
      obtain rfl := List.mem_singleton.1 ht
      simp
    | cons u parts =>
      rw [joinWith_cons_cons]
      obtain rfl | ht := List.mem_cons.1 ht
      · exact List.subset_append_left t _
      · exact List.subset_append_of_subset_right _ (List.subset_cons_of_subset _ (ih ht))

theorem clean_joinWith (hs : Clean [separator]) (h : ∀ t ∈ parts, t.Clean) :
    Clean (joinWith separator parts) := by
  induction parts with
  | nil => exact fun c hc => absurd hc List.not_mem_nil
  | cons s parts ih =>
    obtain ⟨hp, hps⟩ := List.forall_mem_cons.1 h
    cases parts with
    | nil => rwa [joinWith, List.intercalate_singleton]
    | cons u parts =>
      rw [joinWith_cons_cons, ← List.singleton_append]
      exact hp.append (hs.append (ih hps))

/-- The parts of a clean text are clean. -/
theorem Clean.of_mem_splitOn (h : t.Clean) (hs : s ∈ t.splitOn separator) : s.Clean := by
  have hsub := subset_joinWith separator hs
  rw [joinWith, List.intercalate_splitOn] at hsub
  exact h.of_subset hsub

end Text

namespace Component

/-- A step onto a path in normal form adds no other component than its own. -/
theorem mem_of_mem_after {cs : List Component} {c d : Component} (h : d ∈ after cs c) :
    d ∈ cs ∨ d = c := by
  unfold after at h
  split at h
  · exact .inl h
  · exact .inl (List.mem_cons_of_mem _ h)
  · exact .inl h
  · exact (List.mem_cons.1 h).symm

theorem mem_of_mem_foldl_after {cs steps : List Component} {d : Component}
    (h : d ∈ steps.foldl after cs) : d ∈ cs ∨ d ∈ steps := by
  induction steps generalizing cs with
  | nil => exact .inl h
  | cons c steps ih =>
    obtain hd | hd := ih h
    · obtain hd | rfl := mem_of_mem_after hd
      · exact .inl hd
      · exact .inr List.mem_cons_self
    · exact .inr (List.mem_cons_of_mem c hd)

end Component

namespace Path

open Component Text

variable {p q : Path} {cs : List Component}

theorem normalComponents_subset (p : Path) : p.normalComponents ⊆ p.components := by
  intro c hc
  obtain hc | hc := mem_of_mem_foldl_after (List.mem_reverse.1 hc)
  · cases hc
  · exact hc

theorem text_ne_nil_of_mem_components {c : Component} (h : c ∈ p.components) : c.text ≠ [] := by
  obtain ⟨rfl, -⟩ | rfl | hs := mem_components_cases h
  · decide
  · decide
  · exact text_ne_nil (isStep_of_mem_steps hs)

theorem text_ofComponents_ne_nil {c : Component} (h : c.text ≠ []) (cs : List Component) :
    (ofComponents (c :: cs)).text ≠ [] := by
  have hj : joinWith '/' ((c :: cs).map Component.text) ≠ [] := fun e =>
    h (List.subset_nil.1 (e ▸ subset_joinWith '/' List.mem_cons_self))
  cases c with
  | root => exact List.cons_ne_nil _ _
  | _ => exact hj

/-- A normal form is never written as the empty text. -/
theorem text_normalize_ne_nil (p : Path) : p.normalize.text ≠ [] := by
  rw [normalize]
  cases e : p.normalComponents with
  | nil => exact List.cons_ne_nil _ _
  | cons c cs =>
    have hc : c ∈ p.components := p.normalComponents_subset (by simp [e])
    exact text_ofComponents_ne_nil (text_ne_nil_of_mem_components hc) cs

/-! ## Operations on clean paths -/

theorem clean_components (h : Clean p.text) : ∀ c ∈ p.components, Clean c.text := by
  intro c hc
  obtain ⟨rfl, -⟩ | rfl | hs := mem_components_cases hc
  · decide
  · decide
  · obtain ⟨piece, hp, hc⟩ := List.mem_filterMap.1 hs
    have hpiece : Clean piece := h.of_mem_splitOn hp
    unfold ofPiece? at hc
    split at hc
    · cases hc
    · split at hc <;> cases hc
      · decide
      · exact hpiece

theorem clean_joinWith_text (h : ∀ c ∈ cs, Clean c.text) :
    Clean (joinWith '/' (cs.map Component.text)) := by
  refine clean_joinWith (by decide) fun t ht => ?_
  obtain ⟨c, hc, rfl⟩ := List.mem_map.1 ht
  exact h c hc

theorem clean_ofComponents (h : ∀ c ∈ cs, Clean c.text) : Clean (ofComponents cs).text := by
  unfold ofComponents
  split
  · exact (clean_joinWith_text (List.forall_mem_cons.1 h).2).slash_cons
  · exact clean_joinWith_text h

theorem clean_normalComponents (h : Clean p.text) : ∀ c ∈ p.normalComponents, Clean c.text :=
  fun c hc => clean_components h c (p.normalComponents_subset hc)

theorem clean_normalize (h : Clean p.text) : Clean p.normalize.text := by
  have hn := clean_normalComponents h
  unfold normalize ofNormal
  split
  · decide
  · rename_i e
    exact clean_ofComponents (e ▸ hn)

theorem clean_directory (h : Clean p.text) : Clean p.directory.text := by
  have hn : ∀ c ∈ p.normalComponents.dropLast, Clean c.text := fun c hc =>
    clean_normalComponents h c (List.dropLast_subset _ hc)
  unfold directory
  split
  · decide
  · rename_i e
    exact clean_ofComponents (e ▸ hn)

theorem clean_join (hp : Clean p.text) (hq : Clean q.text) : Clean (p.join q).text := by
  unfold join
  split
  · exact hq
  · split
    · exact hp.append hq
    · exact hp.append hq.slash_cons

theorem clean_trimEnd (h : Clean p.text) : Clean p.trimEnd.text := by
  have hpieces : ∀ t ∈ p.pieces, Clean t := fun t ht => h.of_mem_splitOn ht
  have htrim : ∀ {ts : List Text}, (∀ t ∈ ts, Clean t) → ∀ t ∈ trimRight isIdle ts, Clean t :=
    fun hts t ht => hts t (trimRight_sublist.subset ht)
  unfold trimEnd
  split
  · rename_i first rest _ e
    obtain ⟨hfirst, hrest⟩ := List.forall_mem_cons.1 (e ▸ hpieces)
    split
    · decide
    · exact clean_joinWith (by decide) (List.forall_mem_cons.2 ⟨hfirst, htrim hrest⟩)
  · exact clean_joinWith (by decide) (htrim hpieces)

/-- What is left of a clean path below another is clean. -/
theorem clean_below? {base rest : Path} (h : Clean p.text) (hr : p.below? base = some rest) :
    Clean rest.text := by
  unfold below? at hr
  split at hr
  · split at hr
    · cases hr
      exact clean_trimEnd h
    · cases hr
      refine clean_joinWith (by decide) fun t ht => ?_
      have hkept := (List.dropWhile_sublist isIdle).subset (trimRight_sublist.subset ht)
      exact h.of_mem_splitOn ((dropSteps_sublist _ p.pieces).subset hkept)
  · cases hr

end Path

end Rehome
