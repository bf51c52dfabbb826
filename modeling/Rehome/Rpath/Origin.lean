import Rehome.Path.Relative

/-!
# Entries relative to the binary

An entry may begin with a marker, which stands for the directory of the binary being loaded.
`expand` puts that directory in the place of the marker; `anchor` writes entries below a root with
the marker. Entries are texts, so an expanded one is what its path reads as.
-/

namespace Rehome.Rpath

/-- The marker for the directory of the binary. -/
def marker : Text := "$ORIGIN".toList

def bracedMarker : Text := "$\x7bORIGIN\x7d".toList

/-- What follows a beginning of an entry, if that is nothing or begins with a slash. -/
def after? (beginning entry : Text) : Option Text :=
  if beginning.isPrefixOf entry then
    let rest := entry.drop beginning.length
    if rest.isEmpty || rest.head? = some '/' then some rest else none
  else none

/-- What follows the marker, in either spelling, at the start of an entry. -/
def afterMarker? (entry : Text) : Option Text :=
  after? bracedMarker entry <|> after? marker entry

variable {α : Type} [Alphabet α] [DecidableEq α]

/-- The normal form of the place that `rest` leads to from the directory of `start`. Slashes at
the start of `rest` do not make it absolute. -/
def placeFrom (start : Path α) (rest : Text) : Path α :=
  (start.directory.join (.ofText (rest.dropWhile (· = '/')))).normalize

/-- The entry with the directory of `start` in the place of the marker, in normal form, as that
reads; an entry without the marker is left alone. -/
def expandEntry (start : Path α) (entry : Text) : Text :=
  match afterMarker? entry with
  | some rest => (placeFrom start rest).toText
  | none => entry

def expand (start : Path α) (entries : List Text) : List Text :=
  entries.map (expandEntry start)

/-- A way from the directory of the binary, written behind the marker. -/
def markWay (way : Path α) : Text :=
  if way.text = [] ∨ way.components = [.here] then marker
  else marker ++ '/' :: way.toText

variable [Path.Router α]

/-- An absolute entry at or below `root`, written with the marker for the directory of `start`, if
there is a way from there; any other entry is left alone. -/
def anchorEntry (start root : Path α) (entry : Text) : Text :=
  let target : Path α := .ofText entry
  if target.isAbsolute && target.liesUnder root then
    match Path.Router.route? target.normalize start.directory with
    | some way => markWay way
    | none => entry
  else entry

/-- The entries below `root`, written with the marker for the directory of `start`. A relative
`start` has no known directory, and leaves all entries alone. -/
def anchor (start root : Path α) (entries : List Text) : List Text :=
  if start.isAbsolute then entries.map (anchorEntry start root) else entries

@[simp] theorem length_anchor (start root : Path α) (entries : List Text) :
    (anchor start root entries).length = entries.length := by
  unfold anchor
  split
  · exact List.length_map _
  · rfl

omit [Path.Router α] in
/-- An entry without the marker is not expanded. -/
theorem expandEntry_of_none {start : Path α} {entry : Text} (h : afterMarker? entry = none) :
    expandEntry start entry = entry := by
  simp [expandEntry, h]

end Rehome.Rpath
