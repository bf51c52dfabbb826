import Rehome.Files.Lookup

/-!
# What a lookup depends on

Following a path asks of each node only whether it is a directory, a file or a link. So trees that
agree on that lead every path to the same place (`lookup_congr`), whatever their files hold.
-/

namespace Rehome.Files

/-- What following a path asks of a node. -/
inductive Kind where
  | directory
  | file
  | link (target : Text)
  deriving DecidableEq, Repr

def Node.kind : Node → Kind
  | .directory => .directory
  | .file _ _ => .file
  | .link target => .link target

def Tree.kind? (t : Tree) (loc : Location) : Option Kind := (t.node? loc).map Node.kind

def Tree.SameKinds (t u : Tree) : Prop := ∀ loc, t.kind? loc = u.kind? loc

theorem Node.cases_of_kind {m n : Option Node} (h : m.map Node.kind = n.map Node.kind) :
    (m = none ∧ n = none) ∨ (m = some .directory ∧ n = some .directory)
      ∨ (∃ a b c d, m = some (.file a b) ∧ n = some (.file c d))
      ∨ ∃ target, m = some (.link target) ∧ n = some (.link target) := by
  cases m with
  | none => cases n <;> simp_all
  | some m =>
    cases n with
    | none => simp at h
    | some n => cases m <;> cases n <;> simp_all [Node.kind]

theorem advance_congr {t u : Tree} (h : t.SameKinds u) (loc : Location) (pieces : List Text) :
    advance t loc pieces = advance u loc pieces := by
  induction pieces generalizing loc with
  | nil => rfl
  | cons piece rest ih =>
    unfold advance
    rcases Node.cases_of_kind (h loc) with
      ⟨e, e'⟩ | ⟨e, e'⟩ | ⟨_, _, _, _, e, e'⟩ | ⟨_, e, e'⟩ <;> simp only [e, e']
    split
    · exact ih loc
    · rename_i step _
      split
      · rfl
      · rcases Node.cases_of_kind (h (loc.step step)) with
          ⟨e, e'⟩ | ⟨e, e'⟩ | ⟨_, _, _, _, e, e'⟩ | ⟨_, e, e'⟩ <;> simp only [e, e', ih]

theorem walk_congr {t u : Tree} (h : t.SameKinds u) (followLast : Bool) (links : Nat)
    (loc : Location) (pieces : List Text) :
    walk t followLast links loc pieces = walk u followLast links loc pieces := by
  induction links generalizing loc pieces with
  | zero => unfold walk; rw [advance_congr h]
  | succ links ih =>
    unfold walk
    rw [advance_congr h]
    split
    · split
      · rfl
      · exact ih _ _
    · rfl

theorem walkFromRemoved_congr {t u : Tree} (h : t.SameKinds u) (followLast : Bool)
    (parent : Location) (pieces : List Text) :
    walkFromRemoved t followLast parent pieces = walkFromRemoved u followLast parent pieces := by
  induction pieces with
  | nil => rfl
  | cons piece rest ih => simp only [walkFromRemoved, ih, walk_congr h]

theorem lookup_congr {t u : Tree} (h : t.SameKinds u) (cwd : CurrentDirectory) (followLast : Bool)
    (p : Path) : lookup t cwd followLast p = lookup u cwd followLast p := by
  have hw (pieces : List Text) (dir : CurrentDirectory) :
      walkFrom t followLast pieces dir = walkFrom u followLast pieces dir := by
    cases dir with
    | existing loc => exact walk_congr h followLast linkLimit loc pieces
    | removed parent => exact walkFromRemoved_congr h followLast parent pieces
  simp only [lookup, hw]

/-- Other contents of a file, or another mode, leave the kinds as they are. -/
theorem Tree.sameKinds_insert_file {t : Tree} {loc : Location} {a c : Contents} {b d : Bool}
    (h : t.node? loc = some (.file a b)) : t.SameKinds (t.insert loc (.file c d)) := by
  have hne : loc ≠ [] := by
    intro e
    subst e
    cases h
  intro other
  unfold kind?
  rw [node?_insert t loc _ other hne]
  split
  · rename_i e
    rw [e, h]
    rfl
  · rfl

end Rehome.Files
