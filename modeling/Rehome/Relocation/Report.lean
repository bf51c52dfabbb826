import Rehome.Path.Basic

/-!
# Reports

What has become of each binary of a batch.
-/

namespace Rehome

/-- What becomes of a binary. -/
inductive Fate where
  /-- Its search path was written. -/
  | updated
  /-- Its search path could not be written. -/
  | failed
  /-- It has no search path, being no dynamic binary. -/
  | skipped
  deriving DecidableEq, Repr

/-- The binaries of a batch by their fates. -/
structure Report where
  updated : List Path
  failed : List Path
  skipped : List Path
  deriving DecidableEq, Repr

namespace Report

/-- The paths with a given fate, in order. -/
def withFate (fate : Fate) (fates : List (Path × Fate)) : List Path :=
  (fates.filter fun f => f.2 = fate).map Prod.fst

theorem mem_withFate {fate : Fate} {fates : List (Path × Fate)} {p : Path} :
    p ∈ withFate fate fates ↔ (p, fate) ∈ fates := by
  simp [withFate]

def ofFates (fates : List (Path × Fate)) : Report :=
  ⟨withFate .updated fates, withFate .failed fates, withFate .skipped fates⟩

def isComplete (r : Report) : Bool := r.failed.isEmpty

end Report

end Rehome
