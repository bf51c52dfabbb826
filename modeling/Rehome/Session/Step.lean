import Rehome.Session.Basic

/-!
# Steps of a session

Each step of a session is one operation, on the host, in the workshop of a client, with an editor,
or on the memory. It has an answer and leaves a session behind.
-/

namespace Rehome.Session

inductive Step where
  | checkBinary (path : Path)
  | format (path : Path)
  | isBinary (path : Path)
  | strings (path : Path)
  | replaceInStrings (path : Path) (old new : Text)
  | findTool
  /-- Finds the tool and tells its name. -/
  | findNamedTool
  | describeFinder
  | cached
  | resetCache
  | tally
  | roots
  | read (path : Path)
  | write (path : Path) (entries : List Text)
  | editorRead (tool path : Path)
  | editorWrite (tool path : Path) (entries : List Text)
  | editorPath (tool : Path)
  | isMovable (path : Path)
  | relocate (batch : Batch)
  | relocateInMemory (batch : Batch)
  | relocatePrefix (path : Path) (old new : Text)
  | listMemory
  | make (order : Host.Order)
  | remove (path : Path)
  | contents (path : Path)
  deriving Repr

inductive Answer where
  | done
  | flag (value : Bool)
  | text (text : Text)
  | path (path : Path)
  | texts (texts : List Text)
  | paths (paths : List Path)
  | format (format : Binary.Format)
  | finding (finding : Tool.Finding)
  | namedFinding (tool : Text) (finding : Tool.Finding)
  /-- What the cache holds, if anything. -/
  | cached (finding? : Option Tool.Finding)
  /-- What the patch tool said, unless it failed. -/
  | said (text? : Option Text)
  /-- How often the supplier was asked, if there is one. -/
  | tally (tally? : Option Tally)
  | report (report : Report)
  | listing (entries : List (Text × List Text))
  /-- The bytes of a file, if it can be read. -/
  | contents (bytes? : Option Bytes)
  deriving Repr

/-- Answers with the result of an operation in the world of a client. -/
def act {α : Type} (s : Session) (index : Nat) (answer : α → Answer)
    (operation : World Tally → Except Fault α × World Tally) : Except Fault Answer × Session :=
  let (result, w) := operation (s.world (s.client index))
  (result.map answer, s.withWorld index w)

/-- Answers with the result of an operation in the world of a client, on a path that has to pass
the check of binaries. -/
def actOn {α : Type} (s : Session) (index : Nat) (p : Path) (answer : α → Answer)
    (operation : Path → World Tally → Except Fault α × World Tally) :
    Except Fault Answer × Session :=
  match s.host.checkBinary p with
  | .error error => (.error (.error error), s)
  | .ok p => s.act index answer (operation p)

/-- Answers with the result of an operation on the host. -/
def edit {α : Type} (s : Session) (answer : α → Except Fault Answer)
    (operation : Host → α × Host) : Except Fault Answer × Session :=
  let (result, host) := operation s.host
  (answer result, { s with host })

/-- Takes one step, with the client at an index. -/
def step (s : Session) (index : Nat) : Step → Except Fault Answer × Session
  | .checkBinary p => ((reported (s.host.checkBinary p)).map .path, s)
  | .format p => ((s.host.format p).map .format, s)
  | .isBinary p => ((s.host.isBinary p).map .flag, s)
  | .strings p => ((reported (s.host.strings p)).map .texts, s)
  | .replaceInStrings p old new =>
    s.edit (fun result => (reported result).map .flag) fun h => h.replaceInStrings p old new
  | .findTool => s.act index .finding (s.client index).workshop.findTool
  | .findNamedTool =>
    let k := (s.client index).workshop
    s.act index (.namedFinding k.settings.toolName) k.findTool
  | .describeFinder =>
    let c := s.client index
    (.ok (.text (c.workshop.finder.describe (s.cacheOf c)).toList), s)
  | .cached => (.ok (.cached (s.cacheOf (s.client index)).finding?), s)
  | .resetCache =>
    let c := s.client index
    (.ok .done, { s with caches := s.caches.insert c.cacheKey (s.cacheOf c).reset })
  | .tally =>
    let c := s.client index
    (.ok (.tally (c.supplier?.map fun _ => c.tally)), s)
  | .roots => (.ok (.paths (s.client index).settings.roots), s)
  | .read p => s.actOn index p .texts (s.client index).workshop.read
  | .write p entries =>
    s.actOn index p .said fun p => (s.client index).workshop.write p entries
  | .editorRead tool p =>
    s.edit (fun entries => .ok (.texts entries)) ((Editor.patchTool Host.launch tool).read p)
  | .editorWrite tool p entries =>
    s.edit (fun said => .ok (.said said)) ((Editor.patchTool Host.launch tool).write p entries)
  | .editorPath tool => (.ok (.path tool), s)
  | .isMovable p => s.act index .flag ((s.client index).workshop.isMovable p)
  | .relocate batch => s.act index .report ((s.client index).workshop.relocate batch)
  | .relocateInMemory batch =>
    let (result, memory) := batch.relocateWith s.host (Memory.editor s.failing) s.memory
    (result.map .report, { s with memory })
  | .relocatePrefix p old new =>
    s.act index .report ((s.client index).workshop.relocatePrefix p old new)
  | .listMemory => (.ok (.listing s.memory.listing), s)
  | .make order => (.ok .done, { s with host := s.host.make order })
  | .remove p => s.edit (fun removed => .ok (.flag removed)) fun h => h.remove p
  | .contents p => (.ok (.contents (s.host.read p).toOption), s)

end Rehome.Session
