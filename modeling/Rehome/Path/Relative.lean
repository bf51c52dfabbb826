import Rehome.Data.Trim
import Rehome.Path.Normal

/-!
# One path seen from another

`below?` cuts the steps of one path from the front of another and keeps the text of what is left.
A `Router` finds the way from a directory to a path. Between absolute paths in normal form it is the
`route`; what is done with paths relies on no more of it than that.
-/

namespace Rehome

open Alphabet

variable {α : Type} [Alphabet α] [DecidableEq α]

/-- The steps that lead from the directory `source` to `target`: up out of what `source` has for
itself, then down to `target`. -/
def Component.route : (source target : List (Component α)) → List (Component α)
  | s :: ss, t :: ts =>
    if s = t then route ss ts else (s :: ss).map (fun _ => .up) ++ t :: ts
  | ss, ts => ss.map (fun _ => .up) ++ ts

namespace Path

/-- The pieces after those that take the first `count` steps. -/
def dropSteps : (count : Nat) → List (List α) → List (List α)
  | 0, pieces => pieces
  | _ + 1, [] => []
  | count + 1, piece :: pieces =>
    if Component.isIdle piece then dropSteps (count + 1) pieces else dropSteps count pieces

/-- The path without the idle pieces at its end; a path that is no more than its start stays. -/
def trimEnd (p : Path α) : Path α :=
  match p.lead?, p.pieces with
  | some _, first :: rest =>
    match first, trimRight Component.isIdle rest with
    | [], [] => ⟨[slash]⟩
    | first, rest => ⟨Text.joinWith slash (first :: rest)⟩
  | _, pieces => ⟨Text.joinWith slash (trimRight Component.isIdle pieces)⟩

/-- What is left of `p` behind the steps of `base`, as written in `p` but without idle pieces at
its ends. -/
def below? (p base : Path α) : Option (Path α) :=
  if p.startsWith base then
    if base.components = [] then some p.trimEnd
    else some ⟨Text.joinWith slash
      (trim Component.isIdle (dropSteps base.steps.length p.pieces))⟩
  else none

/-- The way from the directory `source` to `target` by their components, if it can be known. -/
def route? (target source : Path α) : Option (Path α) :=
  if target.isAbsolute = source.isAbsolute then
    some (ofComponents (Component.route source.components target.components))
  else if target.isAbsolute then some target
  else none

/-- What finds the way from one path to another. -/
class Router (α : Type) [Alphabet α] [DecidableEq α] where
  route? : (target source : Path α) → Option (Path α)
  /-- From an absolute path in normal form to another one leads the route, written as a path. -/
  route?_of_normal : ∀ {target source : Path α}, target.isAbsolute = true →
    target.normalize = target → source.isAbsolute = true → source.normalize = source →
    route? target source = some (ofComponents (Component.route source.components target.components))

instance : Router α where
  route? := route?
  route?_of_normal ht _ hs _ := if_pos (ht.trans hs.symm)

theorem dropSteps_sublist (count : Nat) (pieces : List (List α)) :
    (dropSteps count pieces).Sublist pieces := by
  induction pieces generalizing count with
  | nil => cases count <;> exact .slnil
  | cons piece pieces ih =>
    cases count with
    | zero => exact .refl _
    | succ count =>
      unfold dropSteps
      split
      · exact (ih _).cons piece
      · exact (ih _).cons piece

end Path

end Rehome
