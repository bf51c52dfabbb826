import Rehome.Host.Setup
import Rehome.Tool.Installer

/-!
# Suppliers

An installer with a fixed plan: what it has installed, where it installs, how often that fails.
Its state counts how often it was asked.
-/

namespace Rehome.Session

open Files

/-- The plan of an installer. -/
structure Supplier where
  /-- The executable that counts as installed. -/
  installed? : Option Path
  directory : Path
  /-- What is written there, if anything. -/
  script? : Option Script
  failures : Nat
  reason : Text
  crashes : Bool
  deriving Repr

/-- How often a supplier was asked for an installed tool and for an installation. -/
structure Tally where
  queries : Nat := 0
  installs : Nat := 0
  deriving DecidableEq, Repr

namespace Supplier

/-- Puts the tool into the directory, as an executable file. -/
def supply (s : Supplier) (tool : Text) (h : Host) : Path × Host :=
  let path := s.directory.join ⟨tool⟩
  match s.script? with
  | some script => (path, h.make ⟨path, .file (.script script), some 0o755⟩)
  | none => (path, h)

def availability (s : Supplier) : Tool.Availability :=
  match s.installed? with
  | some path => .installed path
  | none => .missing

/-- The installer that follows the plan. -/
def installer (s : Supplier) : Tool.Installer Tally where
  availability _ state := (s.availability, state.1, { state.2 with queries := state.2.queries + 1 })
  install tool state :=
    let tally := { state.2 with installs := state.2.installs + 1 }
    if s.crashes then (.crashed, state.1, tally)
    else if state.2.installs < s.failures then (.failed s.reason, state.1, tally)
    else
      let (path, host) := s.supply tool state.1
      (.built path, host, tally)

end Supplier

end Rehome.Session
