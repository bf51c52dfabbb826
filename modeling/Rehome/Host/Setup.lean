import Rehome.Data.Trim
import Rehome.Host.Basic

/-!
# Making and removing files

Changes to the files of a host that come from outside: new files with the directories they need,
links, modes, and removal.
-/

namespace Rehome

open Files

namespace Host

/-- Makes the directory that the pieces `done` lead to, then those one piece further each. -/
def makeDirectoriesFrom (h : Host) (done : List Text) : List Text → Host
  | [] => h
  | piece :: rest =>
    match h.lookup ⟨Text.joinWith '/' (done ++ [piece])⟩ with
    | .absent loc => makeDirectoriesFrom (h.place loc .directory) (done ++ [piece]) rest
    | _ => makeDirectoriesFrom h (done ++ [piece]) rest

/-- Makes a directory and those above it, wherever there is nothing yet. -/
def makeDirectories (h : Host) (p : Path) : Host :=
  h.makeDirectoriesFrom [] p.pieces

/-- Makes the directories above a path. -/
def makeParents (h : Host) (p : Path) : Host :=
  h.makeDirectoriesFrom [] p.pieces.dropLast

/-- Follows a path, but not through a link that it names. -/
def locate (h : Host) (p : Path) : Stop :=
  Files.lookup h.tree h.cwd false p

/-- The host without what lies at or below a location. -/
def erase (h : Host) (loc : Location) : Host :=
  { h with tree := h.tree.erase loc, cwd := h.cwd.afterRemoving loc }

/-- The host without what lies below a location. -/
def clear (h : Host) (loc : Location) : Host :=
  { h with
    tree := h.tree.eraseBelow loc
    cwd := if h.cwd = .existing loc then h.cwd else h.cwd.afterRemoving loc }

def makeLink (h : Host) (p : Path) (target : Text) : Host :=
  match h.locate p with
  | .found loc | .link loc _ _ => (h.erase loc).place loc (.link target)
  | .absent loc => h.place loc (.link target)
  | .removed | .failed _ => h

/-- Whether a mode lets anyone execute a file. -/
def mayExecute (mode : Nat) : Bool :=
  mode &&& 0o111 ≠ 0

/-- Sets the mode of a file, of which only the right to execute is kept. -/
def setMode (h : Host) (p : Path) (mode : Nat) : Host :=
  match h.lookup p with
  | .found loc =>
    match h.tree.node? loc with
    | some (.file contents _) => h.place loc (.file contents (mayExecute mode))
    | _ => h
  | _ => h

/-- Whether a path that leads to a directory ends in a name of the directory itself: neither in `.`
or `..` nor in that of a link. -/
def namesItself (h : Host) (p : Path) : Bool :=
  let bare : Path := ⟨trimRight (· = '/') p.text⟩
  match bare.pieces.getLast?.bind Component.ofPiece?, h.locate bare with
  | some (.name _), .found _ => true
  | _, _ => false

/-- Removes what a path names, with everything below it: whether the path then leads nowhere. A
directory that is not named itself is only emptied, and the root is left alone. -/
def remove (h : Host) (p : Path) : Bool × Host :=
  match h.locate p with
  | .link loc _ _ => (true, h.erase loc)
  | .found loc =>
    if loc = [] then (false, h)
    else if h.tree.node? loc = some .directory && !h.namesItself p then
      let cleared := h.clear loc
      (!cleared.leadsSomewhere p, cleared)
    else (true, h.erase loc)
  | _ => (false, h)

inductive Making where
  | directory
  | link (target : Text)
  | file (contents : Contents)
  deriving DecidableEq, Repr

structure Order where
  path : Path
  making : Making
  mode? : Option Nat := none
  deriving DecidableEq, Repr

/-- Makes a file, in an existing one if there is one, or else a directory or link. -/
def makeOnly (h : Host) (p : Path) : Making → Host
  | .directory => h.makeDirectories p
  | .link target => h.makeLink p target
  | .file contents => (h.write? p contents).getD h

/-- Carries out an order: makes the directories above the file, then the file, then sets its
mode. -/
def make (h : Host) (order : Order) : Host :=
  let made := (h.makeParents order.path).makeOnly order.path order.making
  match order.mode? with
  | some mode => made.setMode order.path mode
  | none => made

end Host

end Rehome
