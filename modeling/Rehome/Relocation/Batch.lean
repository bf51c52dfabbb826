import Rehome.Error
import Rehome.Relocation.Move
import Rehome.Rpath.Origin
import Rehome.Rpath.Substitution

/-!
# Batches

A batch names binaries, the move they have made, and the prefixes to replace in their search
paths. `Batch.relocated` is the search path that one of them is to carry afterwards.
-/

namespace Rehome

/-- How relocated entries are written. -/
inductive Style where
  | absolute
  /-- Relative to the binary, wherever they lie in the new root. -/
  | relative
  deriving DecidableEq, Repr

structure Batch (α : Type := Char) where
  /-- The binaries, where they are now. -/
  binaries : List (Path α)
  move : Move α
  /-- What to replace in absolute entries. -/
  substitution : Substitution
  style : Style
  deriving Repr

namespace Batch

variable {α : Type}

/-- A batch that asks for absolute entries, of binaries that were installed below `oldRoot`. -/
def absolute (binaries : List (Path α)) (oldRoot : Path α) (substitution : Substitution) :
    Batch α :=
  ⟨binaries, ⟨oldRoot, none, none, none⟩, substitution, .absolute⟩

/-- Whether the batch asks for relative entries without a root that they are relative in. -/
def lacksRoot (b : Batch α) : Bool :=
  b.style = .relative && b.move.newRoot?.isNone

def rootRequired : Error :=
  .invalidRequest "relative relocation requires a new root".toList

variable [Alphabet α] [DecidableEq α] [Path.Router α]

/-- The search path that `binary` is to carry after the move, in place of `entries`. In relative
style the marker is first taken for the directory that the binary was in before the move, and at
last written for the one that it is in now. -/
def relocated (b : Batch α) (binary : Path α) (entries : List Text) : Except Error (List Text) :=
  match b.style, b.move.newRoot? with
  | .absolute, _ => .ok (b.substitution.replaceAll entries)
  | .relative, none => .error rootRequired
  | .relative, some root =>
    .ok (Rpath.anchor binary root
      (b.substitution.replaceAll (Rpath.expand (b.move.undo binary) entries)))

theorem relocated_of_relative {b : Batch α} {root : Path α} (hs : b.style = .relative)
    (hr : b.move.newRoot? = some root) (binary : Path α) (entries : List Text) :
    b.relocated binary entries = .ok (Rpath.anchor binary root
      (b.substitution.replaceAll (Rpath.expand (b.move.undo binary) entries))) := by
  simp [relocated, hs, hr]

/-- Only a batch that lacks a root has no relocated entries. -/
theorem relocated_isOk (b : Batch α) (binary : Path α) (entries : List Text) :
    (b.relocated binary entries).isOk = !b.lacksRoot := by
  unfold relocated lacksRoot
  cases b.style <;> cases b.move.newRoot? <;> rfl

end Batch

end Rehome
