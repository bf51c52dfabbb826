import Rehome.Data.OrderedMap
import Rehome.Files.Script
import Rehome.Path.Location

/-!
# File trees

A file tree gives a node to locations. The root is a directory in every tree.
-/

namespace Rehome.Files

/-- What a regular file holds. -/
inductive Contents where
  | data (bytes : Bytes)
  | script (script : Script)
  | native (program : Native)
  deriving DecidableEq, Repr

/-- The bytes that reading a file gives; of a script only the first line is of concern. -/
def Contents.bytes : Contents → Bytes
  | data bytes => bytes
  | script s => Text.utf8 ("#!".toList ++ s.shell ++ ['\n'])
  | native _ => Native.bytes

inductive Node where
  | directory
  | file (contents : Contents) (executable : Bool)
  | link (target : Text)
  deriving DecidableEq, Repr

abbrev Tree := OrderedMap Location Node

namespace Tree

def node? (t : Tree) (loc : Location) : Option Node :=
  if loc = [] then some .directory else t.get? loc

/-- The tree without what lies at or below a location. -/
def erase (t : Tree) (loc : Location) : Tree :=
  t.filterKeys fun key => !loc.isPrefixOf key

/-- The tree without what lies below a location. -/
def eraseBelow (t : Tree) (loc : Location) : Tree :=
  t.filterKeys fun key => key = loc || !loc.isPrefixOf key

theorem node?_insert (t : Tree) (loc : Location) (n : Node) (other : Location) (h : loc ≠ []) :
    node? (t.insert loc n) other = if other = loc then some n else t.node? other := by
  unfold node?
  by_cases ho : other = []
  · have hne : ¬ ([] : Location) = loc := fun e => h e.symm
    simp only [ho, if_true, if_neg hne]
  · simp [ho, OrderedMap.get?_insert]

end Tree

end Rehome.Files
