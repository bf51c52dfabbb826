import Rehome.Path.Relative

/-!
# Moves

A move takes a tree of installed files from one place to another. A package inside the tree may
have prefixes of its own, which then say where its binaries were and where they are.
-/

namespace Rehome

/-- Where binaries were installed, and where they are now. -/
structure Move (α : Type := Char) where
  oldRoot : Path α
  newRoot? : Option (Path α)
  /-- The prefix of the package before the move, if it is not the root. -/
  oldPrefix? : Option (Path α)
  /-- The prefix of the package after the move, if it is not the root. -/
  newPrefix? : Option (Path α)
  deriving DecidableEq, Repr

namespace Move

variable {α : Type}

/-- The move of a package with the given prefixes of its own. -/
def withPrefixes (m : Move α) (old new : Path α) : Move α :=
  { m with oldPrefix? := some old, newPrefix? := some new }

/-- The directory that the binaries have left. -/
def source (m : Move α) : Path α := m.oldPrefix?.getD m.oldRoot

/-- The directory that the binaries are in now, if the move names one. -/
def target? (m : Move α) : Option (Path α) := m.newPrefix? <|> m.newRoot?

/-- Where a binary was before the move: behind the source, what it is behind the target. A binary
outside the target has not moved. -/
def undo [Alphabet α] [DecidableEq α] (m : Move α) (binary : Path α) : Path α :=
  match m.target?.bind binary.below? with
  | some rest => m.source.join rest
  | none => binary

end Move

end Rehome
