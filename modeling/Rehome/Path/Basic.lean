import Rehome.Path.Alphabet

/-!
# Paths

A path is kept as it was written, in letters of an alphabet, and two readings of it are used. Its
*pieces* are what stands between slashes. Its *components* are the steps it takes: empty pieces and
`.` take no step, except that a path which begins with `.` keeps that first component.

Paths are made of characters unless another alphabet is named.
-/

namespace Rehome

open Alphabet

/-- A path, as written. -/
structure Path (α : Type := Char) where
  text : List α
  deriving DecidableEq, Repr, Inhabited

/-- A step of a path. -/
inductive Component (α : Type := Char) where
  | root
  | here
  /-- To the parent directory, `..`. -/
  | up
  | name (text : List α)
  deriving DecidableEq, Repr

variable {α : Type} [Alphabet α]

namespace Component

def text : Component α → List α
  | root => [slash]
  | here => [dot]
  | up => [dot, dot]
  | name t => t

variable [DecidableEq α]

/-- The step that a piece of a path takes; an empty piece and `.` take none. -/
def ofPiece? (piece : List α) : Option (Component α) :=
  if piece = [] ∨ piece = [dot] then none
  else if piece = [dot, dot] then some up
  else some (name piece)

def isIdle (piece : List α) : Bool :=
  piece = [] || piece = [dot]

end Component

namespace Path

/-- The path that is written as the text says. -/
abbrev ofText (t : Text) : Path α := ⟨Alphabet.ofText t⟩

/-- What the path reads as. -/
abbrev toText (p : Path α) : Text := Alphabet.toText p.text

@[simp] theorem ofText_char (t : Text) : (ofText t : Path) = ⟨t⟩ := rfl

@[simp] theorem toText_char (p : Path) : p.toText = p.text := rfl

/-- The text that takes the given steps, with single slashes. -/
def ofComponents : List (Component α) → Path α
  | .root :: cs => ⟨slash :: Text.joinWith slash (cs.map Component.text)⟩
  | cs => ⟨Text.joinWith slash (cs.map Component.text)⟩

variable [DecidableEq α]

/-- What stands between the slashes of the path. -/
def pieces (p : Path α) : List (List α) :=
  p.text.splitOn slash

def isAbsolute (p : Path α) : Bool :=
  p.text.head? = some slash

/-- The component that only the start of a path can have: the root, or a first `.`. -/
def lead? (p : Path α) : Option (Component α) :=
  if p.isAbsolute then some .root
  else if p.pieces.head? = some [dot] then some .here
  else none

def steps (p : Path α) : List (Component α) :=
  p.pieces.filterMap Component.ofPiece?

def components (p : Path α) : List (Component α) :=
  p.lead?.toList ++ p.steps

/-- Whether `p` begins with all the steps of `base`. -/
def startsWith (p base : Path α) : Bool :=
  base.components.isPrefixOf p.components

/-- The path `q`, taken from the directory `p`: an absolute `q` stands for itself. -/
def join (p q : Path α) : Path α :=
  if q.isAbsolute then q
  else if p.text = [] ∨ p.text.getLast? = some slash then ⟨p.text ++ q.text⟩
  else ⟨p.text ++ slash :: q.text⟩

end Path

end Rehome
