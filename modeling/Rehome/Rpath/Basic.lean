import Rehome.Text.Blank

/-!
# Text of a search path

The search path that a binary carries for its libraries (its RPATH) is one text, whose entries are
separated by colons. Reading it ignores blank ends and empty entries.
-/

namespace Rehome.Rpath

/-- The entries of a search path text, in search order. -/
def parse (text : Text) : List Text :=
  (text.trimBlank.splitOn ':').filter fun entry => !entry.isEmpty

/-- The entries as one search path text. -/
def render (entries : List Text) : Text :=
  Text.joinWith ':' entries

end Rehome.Rpath
