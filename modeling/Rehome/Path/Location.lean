import Rehome.Path.Basic

/-!
# Where a path leads

Seen from a directory, which is given by the names that lead to it from the root, a path leads to
a list of names. This is the meaning that normal forms keep.
-/

namespace Rehome

/-- The names that lead from the root to a directory or file. -/
abbrev Location (α : Type := Char) := List (List α)

variable {α : Type}

/-- The location one step further; the root is its own parent. -/
def Location.step (loc : Location α) : Component α → Location α
  | .root => []
  | .here => loc
  | .up => loc.dropLast
  | .name t => loc ++ [t]

/-- The path of a location, from the root. -/
def Location.toPath [Alphabet α] (loc : Location α) : Path α :=
  ⟨Alphabet.slash :: Text.joinWith Alphabet.slash loc⟩

/-- Where `p` leads from the directory `cwd`, if no name on the way is a link. -/
def Path.resolve [Alphabet α] [DecidableEq α] (cwd : Location α) (p : Path α) : Location α :=
  p.components.foldl Location.step cwd

end Rehome
