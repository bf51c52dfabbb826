import Rehome.Path.Basic

/-!
# Settings

What the operations on binaries go by.
-/

namespace Rehome

structure Settings where
  toolName : Text := "patchelf".toList
  /-- The directories searched for the tool, separated by colons, if not those of the host. -/
  searchPath? : Option Text := none
  /-- The directories that a binary must not mention if it is to be moved as it is. -/
  roots : List Path := []
  deriving DecidableEq, Repr

namespace Settings

def setToolName (s : Settings) (name : Text) : Settings := { s with toolName := name }

def setSearchPath (s : Settings) (dirs : Text) : Settings := { s with searchPath? := some dirs }

/-- Adds a root behind those there are. -/
def addRoot (s : Settings) (root : Path) : Settings := { s with roots := s.roots ++ [root] }

end Settings

end Rehome
