import Rehome.Path.Basic

/-!
# Normal form of a path

The normal form drops `.`, and lets each `..` cancel the name before it. The root is its own
parent, and a `..` with nothing to cancel stays at the front of a relative path. Links are not
followed: the normal form depends on the text alone.
-/

namespace Rehome

open Alphabet

variable {α : Type} [Alphabet α] [DecidableEq α]

/-- One more step on a path in normal form, whose last step stands first. -/
def Component.after : List (Component α) → Component α → List (Component α)
  | cs, .here => cs
  | .name _ :: cs, .up => cs
  | .root :: cs, .up => .root :: cs
  | cs, c => c :: cs

namespace Path

def normalComponents (p : Path α) : List (Component α) :=
  (p.components.foldl Component.after []).reverse

/-- The path with the given steps, written `.` if there are none. -/
def ofNormal : List (Component α) → Path α
  | [] => ⟨[dot]⟩
  | c :: cs => ofComponents (c :: cs)

def normalize (p : Path α) : Path α :=
  ofNormal p.normalComponents

/-- Whether the normal form of `p` lies at or below the normal form of `base`. -/
def liesUnder (p base : Path α) : Bool :=
  p.normalize.startsWith base.normalize

/-- The directory that holds `p`, in normal form; the root if the text names no directory. -/
def directory (p : Path α) : Path α :=
  match p.normalComponents.dropLast with
  | [] => ⟨[slash]⟩
  | c :: cs => ofComponents (c :: cs)

end Path

end Rehome
