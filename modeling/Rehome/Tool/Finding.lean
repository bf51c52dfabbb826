import Rehome.Path.Basic

/-!
# Findings

A finding says where the patch tool is, and who had it. A cache keeps the first finding until it is
reset.
-/

namespace Rehome.Tool

/-- Who had the tool. -/
inductive Source where
  | searchPath
  /-- A dependency that was installed before. -/
  | installed
  | freshlyInstalled
  deriving DecidableEq, Repr

structure Finding where
  path : Path
  source : Source
  deriving DecidableEq, Repr

structure Cache where
  finding? : Option Finding := none
  /-- Whether a search has ever broken off before it could fill the cache. -/
  brokenOff : Bool := false
  deriving DecidableEq, Repr

namespace Cache

def keep (c : Cache) (finding : Finding) : Cache := { c with finding? := some finding }

/-- The cache after a search that broke off. -/
def breakOff (c : Cache) : Cache := { c with brokenOff := true }

def reset (c : Cache) : Cache := { c with finding? := none }

end Cache

end Rehome.Tool
