import Rehome.Editor
import Rehome.Host.Inspect
import Rehome.Relocation.Batch
import Rehome.Relocation.Report

/-!
# Relocating a batch

All binaries of a batch are checked before any of them is touched. Then the search path of each
dynamic one is read, relocated and written, in the order of the batch.
-/

namespace Rehome

/-- A binary of a batch that has passed the checks. -/
structure Target where
  path : Path
  /-- Whether it has a search path. -/
  dynamic : Bool
  deriving DecidableEq, Repr

namespace Batch

def machoRefusal (p : Path) : Error :=
  .unsupported ("RPATH relocation of Mach-O binaries (".toList ++ p.text ++ [')'])

section

variable [Elf.Decoder]

def target (h : Host) (p : Path) : Except Fault Target :=
  match h.checkBinary p with
  | .error error => .error (.error error)
  | .ok p =>
    match h.format p with
    | .error fault => .error fault
    | .ok .macho => .error (.error (machoRefusal p))
    | .ok format => .ok ⟨p, format.isBinary⟩

/-- Checks binaries up to the first that fails. -/
def targetsOf (h : Host) : List Path → Except Fault (List Target)
  | [] => .ok []
  | p :: ps =>
    match target h p with
    | .error fault => .error fault
    | .ok t => (targetsOf h ps).map (t :: ·)

/-- Checks the batch and all its binaries. -/
def targets (b : Batch) (h : Host) : Except Fault (List Target) :=
  if b.lacksRoot then .error (.error rootRequired) else targetsOf h b.binaries

end

/-- The report on targets of which none is dynamic. -/
def allSkipped (ts : List Target) : Report :=
  .ofFates (ts.map fun t => (t.path, .skipped))

variable {σ : Type} [Path.Router Char]

/-- Reads, relocates and writes the search path of one binary. -/
def relocateTarget (b : Batch) (editor : Editor σ) (t : Target) (s : σ) : Except Error Fate × σ :=
  if !t.dynamic then (.ok .skipped, s)
  else
    let (entries, s) := editor.read t.path s
    match b.relocated t.path entries with
    | .error error => (.error error, s)
    | .ok entries =>
      match editor.write t.path entries s with
      | (some _, s) => (.ok .updated, s)
      | (none, s) => (.ok .failed, s)

/-- Relocates binaries one after the other, and gives the fate of each. -/
def relocateEach (b : Batch) (editor : Editor σ) :
    List Target → σ → Except Error (List (Path × Fate)) × σ
  | [], s => (.ok [], s)
  | t :: ts, s =>
    match relocateTarget b editor t s with
    | (.error error, s) => (.error error, s)
    | (.ok fate, s) =>
      let (fates, s) := relocateEach b editor ts s
      (fates.map ((t.path, fate) :: ·), s)

/-- Relocates binaries that have passed the checks. -/
def relocateTargets (b : Batch) (editor : Editor σ) (ts : List Target) (s : σ) :
    Except Fault Report × σ :=
  let (fates, s) := relocateEach b editor ts s
  (reported (fates.map .ofFates), s)

variable [Elf.Decoder]

/-- Relocates the binaries of a batch with an editor. -/
def relocateWith (b : Batch) (h : Host) (editor : Editor σ) (s : σ) : Except Fault Report × σ :=
  match b.targets h with
  | .error fault => (.error fault, s)
  | .ok ts => b.relocateTargets editor ts s

/-- A batch that is refused leaves the editor as it was. -/
theorem relocateWith_of_error {b : Batch} {h : Host} {fault : Fault}
    (hb : b.targets h = .error fault) (editor : Editor σ) (s : σ) :
    b.relocateWith h editor s = (.error fault, s) := by
  simp [relocateWith, hb]

end Batch

end Rehome
