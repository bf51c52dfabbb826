import Rehome.Files.Lookup

/-!
# Hosts

The machine that operations run on: its files, and the surroundings of the running process.
-/

namespace Rehome

open Files

structure Host where
  tree : Tree
  cwd : CurrentDirectory
  /-- The directories searched for programs, separated by colons. -/
  searchPath : Text
  home : Text
  deriving Repr

namespace Host

/-- Follows a path, through every link on it. -/
def lookup (h : Host) (p : Path) : Stop :=
  Files.lookup h.tree h.cwd true p

def node? (h : Host) (p : Path) : Except AccessError Node :=
  match h.lookup p with
  | .found loc =>
    match h.tree.node? loc with
    | some node => .ok node
    | none => .error .missing
  | .absent _ => .error .missing
  | .link _ _ _ => .error .tooManyLinks
  | .removed => .ok .directory
  | .failed error => .error error

def leadsSomewhere (h : Host) (p : Path) : Bool :=
  (h.node? p).isOk

/-- Whether the path leads to a regular file that may be executed. -/
def isExecutable (h : Host) (p : Path) : Bool :=
  match h.node? p with
  | .ok (.file _ executable) => executable
  | _ => false

def read (h : Host) (p : Path) : Except AccessError Bytes :=
  match h.node? p with
  | .ok (.file contents _) => .ok contents.bytes
  | .ok _ => .error .isDirectory
  | .error error => .error error

def place (h : Host) (loc : Location) (node : Node) : Host :=
  { h with tree := h.tree.insert loc node }

/-- Gives a regular file new contents, or makes a file that may not be executed. -/
def write (h : Host) (p : Path) (contents : Contents) : Except AccessError Host :=
  match h.lookup p with
  | .found loc =>
    match h.tree.node? loc with
    | some (.file _ executable) => .ok (h.place loc (.file contents executable))
    | some _ => .error .isDirectory
    | none => .error .missing
  | .absent loc => .ok (h.place loc (.file contents false))
  | .link _ _ _ => .error .tooManyLinks
  | .removed => .error .isDirectory
  | .failed error => .error error

/-- The host after a file was written, if it could be. -/
def write? (h : Host) (p : Path) (contents : Contents) : Option Host :=
  (h.write p contents).toOption

end Host

end Rehome
