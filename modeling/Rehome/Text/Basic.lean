/-!
# Texts

A text is the list of its characters, so that every operation on it is a list operation.
-/

namespace Rehome

/-- A text, as the list of its characters. -/
abbrev Text := List Char

namespace Text

/-- The texts, or lists of other letters, joined into one, with `separator` between neighbours. -/
abbrev joinWith {α : Type} (separator : α) (parts : List (List α)) : List α :=
  [separator].intercalate parts

theorem joinWith_cons_cons {α : Type} (separator : α) (part next : List α)
    (parts : List (List α)) :
    joinWith separator (part :: next :: parts)
      = part ++ separator :: joinWith separator (next :: parts) := by
  simp [joinWith, List.intercalate_cons_cons]

/-- Whether `part` occurs in `text` without a gap. -/
def occursIn (part : Text) : Text → Bool
  | [] => part.isEmpty
  | c :: cs => part.isPrefixOf (c :: cs) || occursIn part cs

theorem occursIn_iff {part text : Text} : occursIn part text = true ↔ part <:+: text := by
  induction text with
  | nil => simp [occursIn]
  | cons c cs ih => simp [occursIn, ih, List.infix_cons_iff]

end Text

end Rehome
