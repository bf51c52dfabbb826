import Rehome.Host.Basic

/-!
# Searching for a tool

A `Lookup` says which file a tool name stands for. It is taken as it is, except where it counts that
it follows the rules of such searches (`LawfulLookup`): a tool name of more than one component
stands for one file, seen from the current directory. Any other name is looked for in the
directories of a search path, in order; the first file that may be executed is the one. If the
current directory was removed, a search path of one's own makes up for it with the root directory,
and otherwise every name is looked for in the search path of the host.
-/

namespace Rehome

open Files

namespace Tool

/-- A directory of a search path, with a first component `~` replaced by the home directory. -/
def expandHome (home : Text) (dir : Path) : Path :=
  match dir.components with
  | .name ['~'] :: rest => rest.foldl (fun p c => p.join ⟨c.text⟩) ⟨home⟩
  | _ => dir

/-- The one file that a name of several components stands for, seen from a directory. -/
def namedFile (dir : Location) (name : Path) : Path :=
  if name.isAbsolute then name
  else (name.components.filter (· ≠ .here)).foldl (fun p c => p.join ⟨c.text⟩) dir.toPath

/-- The directory that names of several components are seen from. -/
def vantage? (cwd : CurrentDirectory) (searchPath? : Option Text) : Option Location :=
  match cwd, searchPath? with
  | .existing loc, _ => some loc
  | .removed _, some _ => some []
  | .removed _, none => none

/-- The files that a name can stand for in the directories of a search path. -/
def listedFiles (home searchPath name : Text) : List Path :=
  (searchPath.splitOn ':').map fun dir => (expandHome home ⟨dir⟩).join ⟨name⟩

/-- The files that a tool name can stand for, in the order in which they are tried. -/
def candidates (h : Host) (name : Text) (searchPath? : Option Text) : List Path :=
  let listed := listedFiles h.home (searchPath?.getD h.searchPath) name
  if 1 < (Path.mk name).components.length then
    match vantage? h.cwd searchPath? with
    | some dir => [namedFile dir ⟨name⟩]
    | none => listed
  else listed

/-- What looks up the file that a tool name stands for, in a search path of one's own if there is
one. -/
class Lookup where
  find? : Host → (name : Text) → (searchPath? : Option Text) → Option Path

/-- A lookup by the rules: it finds the first file that the name can stand for and that may be
executed. -/
class LawfulLookup [Lookup] : Prop where
  find?_eq : ∀ (h : Host) (name : Text) (searchPath? : Option Text),
    Lookup.find? h name searchPath? = (candidates h name searchPath?).find? h.isExecutable

instance : Lookup := ⟨fun h name searchPath? =>
  (candidates h name searchPath?).find? h.isExecutable⟩

instance : LawfulLookup := ⟨fun _ _ _ => rfl⟩

end Tool

end Rehome
