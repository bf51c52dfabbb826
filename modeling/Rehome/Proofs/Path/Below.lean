import Rehome.Path.Relative
import Rehome.Proofs.Path.Absolute

/-!
# The rest of a path below another

However the two are spelled, what is left of a path below another takes the steps that the path
takes behind those of the other (`exists_below?`). A path in normal form that lies strictly below
another has the names in between for its rest (`exists_toPath_below`, `below?_toPath`), and the text
of a location goes on behind that of a location above it (`text_toPath_append`).
-/

namespace Rehome

open Alphabet Component

variable {α : Type} [Alphabet α]

namespace Location

/-- The text of a location behind that of a location above it. -/
def tail (loc : Location α) : List α := loc.flatMap (slash :: ·)

theorem tail_append (l m : Location α) : tail (l ++ m) = tail l ++ tail m := List.flatMap_append

theorem tail_eq_nil_or (loc : Location α) : tail loc = [] ∨ (tail loc).head? = some slash := by
  cases loc with
  | nil => exact .inl rfl
  | cons t loc => exact .inr rfl

theorem tail_eq_joinWith {loc : Location α} (h : loc ≠ []) :
    tail loc = slash :: Text.joinWith slash loc := by
  induction loc with
  | nil => exact absurd rfl h
  | cons t loc ih =>
    cases loc with
    | nil => simp [tail]
    | cons u loc =>
      have hu := ih (List.cons_ne_nil u loc)
      rw [show tail (t :: u :: loc) = slash :: t ++ tail (u :: loc) from List.flatMap_cons, hu]
      simp [Text.joinWith, List.intercalate_cons_cons]

theorem text_toPath {loc : Location α} (h : loc ≠ []) : loc.toPath.text = tail loc :=
  (tail_eq_joinWith h).symm

theorem text_toPath_append {l : Location α} (h : l ≠ []) (m : Location α) :
    (toPath (l ++ m)).text = l.toPath.text ++ tail m := by
  rw [text_toPath h, text_toPath (by simp [h]), tail_append]

end Location

variable [DecidableEq α]

theorem isIdle_of_isName {t : List α} (h : IsName t) : isIdle t = false := by
  simp [isIdle, h.1, h.2.1]

theorem trim_isIdle {names : List (List α)} (h : ∀ t ∈ names, IsName t) :
    trim isIdle names = names := by
  have hd : names.dropWhile isIdle = names := by
    cases names with
    | nil => rfl
    | cons t names => simp [isIdle_of_isName (h t (by simp))]
  rw [trim, hd]
  rcases List.eq_nil_or_concat names with rfl | ⟨init, t, rfl⟩
  · rfl
  · rw [List.concat_eq_append] at h ⊢
    exact trimRight_concat_of_not (isIdle_of_isName (h t (by simp)))

namespace Path

/-- A path does not begin at the root if its first piece takes a step. -/
theorem isAbsolute_joinWith_pieces {parts : List (List α)} (h : ∀ t ∈ parts, slash ∉ t)
    (hfirst : ∀ t, parts.head? = some t → isIdle t = false) :
    (Path.mk (Text.joinWith slash parts)).isAbsolute = false := by
  cases parts with
  | nil => rfl
  | cons t parts =>
    obtain ⟨c, t, rfl⟩ : ∃ c t', t = c :: t' := by
      refine List.exists_cons_of_ne_nil fun e => ?_
      have ht := hfirst t rfl
      rw [e] at ht
      cases ht
    have hc : ¬ c = slash := fun e => h _ List.mem_cons_self (e ▸ List.mem_cons_self)
    cases parts <;> simp [isAbsolute, Text.joinWith, List.intercalate_cons_cons, hc]

end Path

namespace Location

theorem steps_joinWith_names {loc : Location α} (h : Named loc) :
    (Path.mk (Text.joinWith slash loc)).steps = loc.map .name := by
  have hs := Path.steps_joinWith (isStep_of_named h)
  simpa [Component.text, Function.comp_def] using hs

theorem steps_tail {loc : Location α} (h : Named loc) :
    (Path.mk (tail loc)).steps = loc.map .name := by
  by_cases hne : loc = []
  · subst hne; rfl
  · rw [tail_eq_joinWith hne, Path.steps_slash, steps_joinWith_names h]

theorem isAbsolute_joinWith {loc : Location α} (h : Named loc) :
    (Path.mk (Text.joinWith slash loc)).isAbsolute = false :=
  Path.isAbsolute_joinWith_pieces (fun t ht => (h t ht).2.2.2)
    fun t ht => isIdle_of_isName (h t (List.mem_of_head? ht))

theorem pieces_toPath {loc : Location α} (h : Named loc) (hne : loc ≠ []) :
    loc.toPath.pieces = [] :: loc := by
  have hj : Text.joinWith slash ([] :: loc) = slash :: Text.joinWith slash loc := by
    obtain ⟨t, loc, rfl⟩ := List.exists_cons_of_ne_nil hne
    simp [Text.joinWith, List.intercalate_cons_cons]
  rw [toPath, ← hj]
  refine Path.pieces_joinWith (by simp) fun t ht => ?_
  rcases List.mem_cons.1 ht with rfl | ht
  · simp
  · exact (h t ht).2.2.2

end Location

namespace Path

open Location

/-! ## Any spelling -/

theorem filterMap_dropSteps (count : Nat) (pieces : List (List α)) :
    (dropSteps count pieces).filterMap ofPiece? = (pieces.filterMap ofPiece?).drop count := by
  induction pieces generalizing count with
  | nil => cases count <;> rfl
  | cons piece pieces ih =>
    cases count with
    | zero => rfl
    | succ count =>
      unfold dropSteps
      split
      · rename_i hidle
        rw [ih, List.filterMap_cons_none (ofPiece?_eq_none_iff.2 hidle)]
      · rename_i hstep
        obtain ⟨c, hc⟩ := Option.ne_none_iff_exists'.1 (mt ofPiece?_eq_none_iff.1 hstep)
        rw [ih, List.filterMap_cons_some hc, List.drop_succ_cons]

/-- What is left of a path below another takes the steps behind those of the other, and it does not
begin at the root. -/
theorem exists_below? {p base : Path α} (hb : base.isAbsolute = true)
    (h : p.startsWith base = true) :
    ∃ rest : Path α, p.below? base = some rest ∧ rest.isAbsolute = false
      ∧ p.components = base.components ++ rest.steps := by
  have hp := isAbsolute_of_startsWith hb h
  have hcs : base.components ≠ [] := by
    rw [components_of_isAbsolute hb]
    exact List.cons_ne_nil _ _
  obtain ⟨kept, hkept⟩ : ∃ kept, kept = trim isIdle (dropSteps base.steps.length p.pieces) :=
    ⟨_, rfl⟩
  have hslash : ∀ t ∈ kept, slash ∉ t := fun t ht =>
    not_mem_of_mem_splitOn
      ((trim_sublist.trans (dropSteps_sublist _ p.pieces)).subset (hkept ▸ ht))
  have hsteps : (Path.mk (Text.joinWith slash kept)).steps = p.steps.drop base.steps.length := by
    rw [steps_joinWith_pieces hslash, hkept,
      filterMap_trim fun t => ofPiece?_eq_none_iff.2, filterMap_dropSteps]
    rfl
  refine ⟨⟨Text.joinWith slash kept⟩, by rw [below?, if_pos h, if_neg hcs, hkept], ?_, ?_⟩
  · exact isAbsolute_joinWith_pieces hslash fun t ht => eq_false_of_head?_trim (hkept ▸ ht)
  · rw [startsWith, List.isPrefixOf_iff_prefix, components_of_isAbsolute hb,
      components_of_isAbsolute hp, List.cons_prefix_cons] at h
    obtain ⟨rest, hrest⟩ := h.2
    rw [hsteps, components_of_isAbsolute hb, components_of_isAbsolute hp, ← hrest,
      List.drop_left, List.cons_append]

/-! ## Normal forms -/

theorem dropSteps_names {names rest : List (List α)} (h : ∀ t ∈ names, IsName t) :
    dropSteps names.length (names ++ rest) = rest := by
  induction names with
  | nil => simp [dropSteps]
  | cons t names ih =>
    have ht := isIdle_of_isName (h t (by simp))
    simp only [List.cons_append, List.length_cons, dropSteps, ht, Bool.false_eq_true, if_false]
    exact ih fun u hu => h u (by simp [hu])

/-- Below a base in normal form, a path in normal form is left with the names in between. -/
theorem below?_toPath {base rest : Location α} (hb : Named base) (hr : Named rest)
    (hne : rest ≠ []) :
    (toPath (base ++ rest)).below? base.toPath = some ⟨Text.joinWith slash rest⟩ := by
  have hl := hb.append hr
  have hpre : (toPath (base ++ rest)).startsWith base.toPath = true :=
    (startsWith_toPath hl hb).2 (List.prefix_append base rest)
  have hcs : base.toPath.components ≠ [] := by simp [components_toPath hb, Location.components]
  have hsteps : base.toPath.steps.length = base.length := by rw [steps_toPath hb, List.length_map]
  have hdrop : trim isIdle (dropSteps base.length ([] :: (base ++ rest))) = rest := by
    cases base with
    | nil => rw [trim]; exact trim_isIdle hr
    | cons t base =>
      have : dropSteps (t :: base).length ([] :: (t :: base ++ rest))
          = dropSteps (t :: base).length (t :: base ++ rest) := rfl
      rw [this, dropSteps_names hb, trim_isIdle hr]
  rw [below?, if_pos hpre, if_neg hcs, pieces_toPath hl (by simp [hne]), hsteps, hdrop]

/-- A path in normal form strictly below another has names behind those of the other. -/
theorem exists_toPath_below {p base : Path α} (hb : base.isAbsolute = true)
    (hbn : base.normalize = base) (h : p.startsWith base = true) (hn : p.normalize = p)
    (hne : p ≠ base) :
    ∃ above inner, Named above ∧ Named inner ∧ inner ≠ [] ∧ base = above.toPath
      ∧ p = toPath (above ++ inner) := by
  obtain ⟨above, ha, rfl⟩ := exists_toPath hb hbn
  obtain ⟨loc, hl, rfl⟩ := exists_toPath (isAbsolute_of_startsWith hb h) hn
  obtain ⟨inner, rfl⟩ := (startsWith_toPath hl ha).1 h
  refine ⟨above, inner, ha, fun t ht => hl t (List.mem_append_right above ht), ?_, rfl, rfl⟩
  rintro rfl
  exact hne (by rw [List.append_nil])

end Path

end Rehome
