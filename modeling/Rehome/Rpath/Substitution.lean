import Rehome.Data.OrderedMap
import Rehome.Text.Basic

/-!
# Substitutions

A substitution says which beginnings of entries are to be replaced, and by what. Of several old
prefixes that an entry begins with, the longest counts; the empty one never does.
-/

namespace Rehome

/-- Old prefixes, with the new prefixes that take their places. -/
abbrev Substitution := OrderedMap Text Text

namespace Substitution

def applies (old entry : Text) : Bool :=
  !old.isEmpty && old.isPrefixOf entry

/-- The pair with the longest old prefix that applies to the entry. -/
def rule? (m : Substitution) (entry : Text) : Option (Text × Text) :=
  (m.pairs.filter fun rule => applies rule.1 entry).maxOn? fun rule => rule.1.length

/-- The entry with its longest old prefix replaced, if one applies. -/
def replace? (m : Substitution) (entry : Text) : Option Text :=
  (m.rule? entry).map fun rule => rule.2 ++ entry.drop rule.1.length

/-- The entry with its longest old prefix replaced, or the entry itself if none applies. -/
def replace (m : Substitution) (entry : Text) : Text :=
  (m.replace? entry).getD entry

/-- The entries after replacement, each kept only where it first occurs. -/
def replaceAll (m : Substitution) (entries : List Text) : List Text :=
  (entries.map m.replace).eraseDups

theorem applies_iff {old entry : Text} : applies old entry = true ↔ old ≠ [] ∧ old <+: entry := by
  cases old <;> simp [applies]

theorem rule?_mem {m : Substitution} {entry : Text} {rule : Text × Text}
    (h : m.rule? entry = some rule) : rule ∈ m.pairs ∧ applies rule.1 entry = true :=
  List.mem_filter.1 (List.maxOn?_mem h)

theorem rule?_eq_none_iff {m : Substitution} {entry : Text} :
    m.rule? entry = none ↔ ∀ rule ∈ m.pairs, applies rule.1 entry = false := by
  rw [← Option.not_isSome_iff_eq_none, rule?, List.isSome_maxOn?_iff]
  simp

/-- No rule that applies has a longer old prefix than the rule for an entry. -/
theorem length_le_of_rule? {m : Substitution} {entry : Text} {rule other : Text × Text}
    (h : m.rule? entry = some rule) (ho : other ∈ m.pairs) (ha : applies other.1 entry = true) :
    other.1.length ≤ rule.1.length := by
  have hmem : other ∈ m.pairs.filter fun rule => applies rule.1 entry := by simp [ho, ha]
  have hmax := List.le_apply_get_maxOn?_of_mem (f := fun rule : Text × Text => rule.1.length) hmem
  unfold rule? at h
  simpa only [h, Option.get_some] using hmax

end Substitution

end Rehome
