import Rehome.Relocation.Run
import Rehome.Tool.Finder

/-!
# Workshops

A workshop carries out operations on binaries with a patch tool, which it finds when it first
needs one. Whatever can be refused is refused before the tool is looked for.
-/

namespace Rehome

structure Workshop (σ : Type) where
  settings : Settings
  /-- Where to get the patch tool if it is not on the search path. -/
  installer? : Option (Tool.Installer σ)
  launch : Launcher

namespace Workshop

variable {σ : Type}

def finder (k : Workshop σ) : Tool.Finder σ := .ofSettings k.settings k.installer?

section

variable [Tool.Lookup]

def findTool (k : Workshop σ) (w : World σ) : Except Fault Tool.Finding × World σ :=
  k.finder.find w

/-- Has the patch tool do something to the host. -/
def withTool {α : Type} (k : Workshop σ) (act : Editor Host → Host → Except Fault α × Host)
    (w : World σ) : Except Fault α × World σ :=
  match k.findTool w with
  | (.error fault, w) => (.error fault, w)
  | (.ok finding, w) =>
    let (result, host) := act (.patchTool k.launch finding.path) w.host
    (result, { w with host })

/-- The entries of a binary; none if it has none or the tool fails. -/
def read (k : Workshop σ) (binary : Path) : World σ → Except Fault (List Text) × World σ :=
  k.withTool fun editor h =>
    let (entries, h) := editor.read binary h
    (.ok entries, h)

/-- Gives a binary new entries: what the tool has to say, or nothing if it fails. -/
def write (k : Workshop σ) (binary : Path) (entries : List Text) :
    World σ → Except Fault (Option Text) × World σ :=
  k.withTool fun editor h =>
    let (said, h) := editor.write binary entries h
    (.ok said, h)

variable [Elf.Decoder] [Path.Router Char]

/-- Relocates a batch. The tool is looked for only if one of its binaries is dynamic. -/
def relocate (k : Workshop σ) (b : Batch) (w : World σ) : Except Fault Report × World σ :=
  match b.targets w.host with
  | .error fault => (.error fault, w)
  | .ok ts =>
    if ts.all fun t => !t.dynamic then (.ok (Batch.allSkipped ts), w)
    else k.withTool (fun editor h => b.relocateTargets editor ts h) w

/-- Relocates the entries of one binary from an old prefix to a new one. -/
def relocatePrefix (k : Workshop σ) (binary : Path) (old new : Text) (w : World σ) :
    Except Fault Report × World σ :=
  k.relocate (.absolute [binary] ⟨old⟩ (.ofList [(old, new)])) w

end

/-! ## Binaries that can be moved as they are -/

def liesUnderRoot (roots : List Path) (entry : Text) : Bool :=
  (Path.mk entry).isAbsolute && roots.any fun root => (Path.mk entry).liesUnder root

/-- Whether one of the strings mentions a root; the search path itself does not count. -/
def mentionsRoot (roots : List Path) (own : Text) (strings : List Text) : Bool :=
  roots.any fun root => (strings.filter (· ≠ own)).any (Text.occursIn root.text)

def machoRefusal (p : Path) : Error :=
  .unsupported ("RPATH inspection of Mach-O binaries (".toList ++ p.text ++ [')'])

/-- Whether a dynamic binary with the given entries is free of the roots. -/
def isFreeOfRoots (k : Workshop σ) (h : Host) (p : Path) (entries : List Text) :
    Except Fault Bool :=
  if entries.any (liesUnderRoot k.settings.roots) then .ok false
  else
    reported ((h.strings p).map fun strings =>
      !mentionsRoot k.settings.roots (Rpath.render entries) strings)

variable [Tool.Lookup] [Elf.Decoder]

/-- Whether the binary at a path can be moved as it is: neither its search path nor another of its
strings mentions a root. A file that is no dynamic binary cannot. -/
def isMovable (k : Workshop σ) (p : Path) (w : World σ) : Except Fault Bool × World σ :=
  match w.host.checkBinary p with
  | .error error => (.error (.error error), w)
  | .ok p =>
    match w.host.format p with
    | .error fault => (.error fault, w)
    | .ok .macho => (.error (.error (machoRefusal p)), w)
    | .ok format =>
      if !format.isBinary then (.ok false, w)
      else if k.settings.roots = [] then (.ok true, w)
      else
        match k.read p w with
        | (.error fault, w) => (.error fault, w)
        | (.ok entries, w) => (k.isFreeOfRoots w.host p entries, w)

end Workshop

end Rehome
