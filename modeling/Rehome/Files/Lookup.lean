import Rehome.Files.Tree

/-!
# Looking up a path

Following a path through a file tree, name by name. Links are followed, up to a limit; a `..` goes
to the parent of the directory that was reached, and a path that ends in a slash or in `.` must
lead to a directory. A current directory that was removed is empty, but its parent is still known.
-/

namespace Rehome.Files

/-- Why a file cannot be reached or read. -/
inductive AccessError where
  | missing
  | notDirectory
  | isDirectory
  | nameTooLong
  | tooManyLinks
  | nulInPath
  deriving DecidableEq, Repr

def AccessError.message : AccessError → String
  | missing => "No such file or directory (os error 2)"
  | notDirectory => "Not a directory (os error 20)"
  | isDirectory => "Is a directory (os error 21)"
  | nameTooLong => "File name too long (os error 36)"
  | tooManyLinks => "Too many levels of symbolic links (os error 40)"
  | nulInPath => "file name contained an unexpected NUL byte"

/-- The current directory of a process, from which relative paths are followed. -/
inductive CurrentDirectory where
  | existing (loc : Location)
  /-- A directory that was removed while the process was in it. -/
  | removed (parent : Location)
  deriving DecidableEq, Repr

/-- The current directory after what lies at or below `loc` was removed. -/
def CurrentDirectory.afterRemoving (loc : Location) : CurrentDirectory → CurrentDirectory
  | existing cwd => if loc.isPrefixOf cwd then removed cwd.dropLast else existing cwd
  | removed parent => removed parent

/-- Where following a path stops. -/
inductive Stop where
  /-- At a directory or regular file, with nothing left of the path. -/
  | found (loc : Location)
  /-- At the last name, which names nothing in an existing directory. -/
  | absent (loc : Location)
  /-- At a link, with the pieces behind it. -/
  | link (loc : Location) (target : Text) (rest : List Text)
  /-- In the current directory, which was removed. -/
  | removed
  | failed (error : AccessError)
  deriving DecidableEq, Repr

/-- The longest name, in bytes. -/
def longestName : Nat := 255

/-- The longest path, in bytes. -/
def longestPath : Nat := 4095

def linkLimit : Nat := 40

/-- Follows pieces of a path from a location up to the first link. -/
def advance (t : Tree) (loc : Location) : List Text → Stop
  | [] => .found loc
  | piece :: rest =>
    match t.node? loc with
    | some .directory =>
      match Component.ofPiece? piece with
      | none => advance t loc rest
      | some step =>
        if longestName < (Text.utf8 piece).length then .failed .nameTooLong
        else
          match t.node? (loc.step step) with
          | some (.link target) => .link (loc.step step) target rest
          | some _ => advance t (loc.step step) rest
          | none => if rest = [] then .absent (loc.step step) else .failed .missing
    | some _ => .failed .notDirectory
    | none => .failed .missing

/-- Follows pieces of a path and up to `links` links. A link that ends the path is followed only
on demand. -/
def walk (t : Tree) (followLast : Bool) (links : Nat) (loc : Location)
    (pieces : List Text) : Stop :=
  match advance t loc pieces with
  | .link loc target rest =>
    if rest = [] && !followLast then .link loc target rest
    else
      match links with
      | 0 => .failed .tooManyLinks
      | links + 1 =>
        walk t followLast links (if (Path.mk target).isAbsolute then [] else loc.dropLast)
          ((Path.mk target).pieces ++ rest)
  | stop => stop

/-- Follows pieces of a path from a directory that was removed. -/
def walkFromRemoved (t : Tree) (followLast : Bool) (parent : Location) : List Text → Stop
  | [] => .removed
  | piece :: rest =>
    match Component.ofPiece? piece with
    | none => walkFromRemoved t followLast parent rest
    | some .up => walk t followLast linkLimit parent rest
    | some _ => .failed .missing

/-- Follows pieces of a path from the current directory. -/
def walkFrom (t : Tree) (followLast : Bool) (pieces : List Text) : CurrentDirectory → Stop
  | .existing loc => walk t followLast linkLimit loc pieces
  | .removed parent => walkFromRemoved t followLast parent pieces

def lookup (t : Tree) (cwd : CurrentDirectory) (followLast : Bool) (p : Path) : Stop :=
  if '\x00' ∈ p.text then .failed .nulInPath
  else if p.text = [] then .failed .missing
  else if longestPath < (Text.utf8 p.text).length then .failed .nameTooLong
  else walkFrom t followLast p.pieces (if p.isAbsolute then .existing [] else cwd)

end Rehome.Files
