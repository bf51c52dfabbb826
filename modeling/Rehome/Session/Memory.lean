import Rehome.Data.OrderedMap
import Rehome.Editor

/-!
# Search paths in memory

An editor that keeps the search paths of binaries by their path texts. Writing fails for chosen
paths.
-/

namespace Rehome.Session

/-- The entries of each binary, by the text of its path. -/
abbrev Memory := OrderedMap Text (List Text)

namespace Memory

/-- The editor over a memory; writing to the paths in `failing` fails. -/
def editor (failing : List Text) : Editor Memory where
  read binary m := ((m.get? binary.text).getD [], m)
  write binary entries m :=
    if binary.text ∈ failing then (none, m)
    else (some (Rpath.render entries), m.insert binary.text entries)

def precedes : Text → Text → Bool
  | [], _ => true
  | _ :: _, [] => false
  | c :: cs, d :: ds => c < d || (c = d && precedes cs ds)

/-- All paths with their entries, in the order of the paths. -/
def listing (m : Memory) : List (Text × List Text) :=
  m.pairs.mergeSort fun p q => precedes p.1 q.1

end Memory

end Rehome.Session
