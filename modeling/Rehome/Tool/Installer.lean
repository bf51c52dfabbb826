import Rehome.Host.Basic

/-!
# Installers

An installer gives access to a package manager. It is any machine with a state of its own that
answers two questions, and it may change the files of the host whenever it is asked.
-/

namespace Rehome.Tool

/-- What an installer says when it is asked for an installed tool. -/
inductive Availability where
  /-- A dependency that provides the tool is installed, and this is its executable. -/
  | installed (path : Path)
  | missing
  | crashed
  deriving DecidableEq, Repr

/-- What comes of installing a tool. -/
inductive Installation where
  /-- The tool is now said to be at this path. -/
  | built (path : Path)
  | failed (reason : Text)
  | crashed
  deriving DecidableEq, Repr

/-- A package manager with states in `σ`. -/
structure Installer (σ : Type) where
  /-- Looks for an installed dependency that provides a tool. -/
  availability : Text → Host × σ → Availability × (Host × σ)
  /-- Installs the dependency that provides a tool. -/
  install : Text → Host × σ → Installation × (Host × σ)

end Rehome.Tool
