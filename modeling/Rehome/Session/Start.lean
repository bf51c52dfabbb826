import Rehome.Session.Basic

/-!
# The beginning of a session

A session begins on a host with the usual directories, a command interpreter, and a scratch
directory, which is the current one. Then its files are made.
-/

namespace Rehome

open Files

namespace Session

/-- The directories that every host has. -/
def usualDirectories : List Location :=
  [["bin"], ["boot"], ["dev"], ["etc"], ["home"], ["lib"], ["lib64"], ["media"], ["mnt"], ["opt"],
    ["proc"], ["root"], ["run"], ["sbin"], ["srv"], ["sys"], ["tmp"], ["usr"], ["usr", "bin"],
    ["usr", "lib"], ["usr", "local"], ["usr", "sbin"], ["usr", "share"], ["var"]].map
    (List.map String.toList)

/-- The location of a file that always reads as empty. -/
def nullLocation : Location := ["dev".toList, "null".toList]

/-- The programs that every host has, by their names. -/
def usualPrograms : List (Text × Native) :=
  [("sh", .shell), ("dash", .shell), ("bash", .shell), ("true", .succeed), ("false", .fail),
    ("echo", .print), ("env", .start)].map fun program => (program.1.toList, program.2)

/-- The directories in which those programs are. -/
def programDirectories : List Location :=
  [["bin"], ["usr", "bin"]].map (List.map String.toList)

/-- The files that every host has. -/
def usualFiles : List (Location × Node) :=
  (nullLocation, .file (.data []) false) :: programDirectories.flatMap fun dir =>
    usualPrograms.map fun program => (dir ++ [program.1], .file (.native program.2) true)

/-- A host with an empty scratch directory. -/
def freshHost (scratch : Location) (searchPath : Text) : Host :=
  { tree := .ofList (((usualDirectories ++ [scratch]).map fun loc => (loc, Node.directory))
      ++ usualFiles)
    cwd := .existing scratch
    searchPath
    home := (scratch ++ ["home".toList]).toPath.text }

/-- The session that begins with the given files, clients and memory. -/
def start (host : Host) (files : List Host.Order) (clients : List Client)
    (memory : List (Text × List Text)) (failing : List Text) : Session :=
  { host := files.foldl Host.make host
    clients
    caches := .empty
    memory := .ofList memory
    failing }

end Session

end Rehome
