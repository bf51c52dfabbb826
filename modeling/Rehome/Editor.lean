import Rehome.Host.Command
import Rehome.Rpath.Basic

/-!
# Editors

An editor gets and sets the search paths of binaries. It may keep any state; failures do not stop
it: a search path that cannot be read counts as empty, and a failed write is reported as such.
-/

namespace Rehome

/-- A way to get and set search paths, with states in `σ`. -/
structure Editor (σ : Type) where
  /-- The entries of a binary, none if it has none or they cannot be read. -/
  read : Path → σ → List Text × σ
  /-- Gives a binary new entries: what the editor has to say, or nothing if it failed. -/
  write : Path → List Text → σ → Option Text × σ

namespace Editor

def setCall (binary : Path) (entries : List Text) : Call :=
  .set (Rpath.render entries) binary.text

/-- The entries in what a process printed; none if it failed or never ran. -/
def printedEntries : Option Output → List Text
  | some output => if output.success then Rpath.parse (Text.ofUtf8 output.out) else []
  | none => []

/-- What a successful process had to say. -/
def outputText? : Option Output → Option Text
  | some output =>
    if output.success then some (Text.ofUtf8 output.out ++ Text.ofUtf8 output.err) else none
  | none => none

/-- The editor that has a patch tool do the work. -/
def patchTool (launch : Launcher) (tool : Path) : Editor Host where
  read binary h :=
    let (output, h) := launch tool (Call.print binary.text).arguments h
    (printedEntries output, h)
  write binary entries h :=
    let (output, h) := launch tool (setCall binary entries).arguments h
    (outputText? output, h)

end Editor

end Rehome
