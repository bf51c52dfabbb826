import Rehome.Proofs.Data.Repetition
import Rehome.Rpath.Substitution

/-!
# Substitutions that settle at once

An entry either begins with an old prefix, which the new one takes the place of, or stays as it is
(`replace_cases`). If no old and new prefix begin with one another (`Separated`), an entry that has
been replaced begins with no old prefix any more, and a second pass changes nothing
(`Separated.replace_replace`, `Separated.replaceAll_replaceAll`).
-/

namespace Rehome.Substitution

/-- No old prefix begins a new one or is begun by one. An empty old prefix never applies and does
not count. -/
def Separated (m : Substitution) : Prop :=
  ∀ rule ∈ m.pairs, ∀ other ∈ m.pairs, rule.1 ≠ [] →
    ¬ rule.1 <+: other.2 ∧ ¬ other.2 <+: rule.1

instance (m : Substitution) : Decidable m.Separated :=
  inferInstanceAs (Decidable (∀ rule ∈ m.pairs, ∀ other ∈ m.pairs, _ → _))

variable {m : Substitution}

/-- An entry stays as it is if no rule applies, and otherwise has the old prefix of a rule
replaced. -/
theorem replace_cases (m : Substitution) (entry : Text) :
    ((∀ rule ∈ m.pairs, applies rule.1 entry = false) ∧ m.replace entry = entry)
    ∨ ∃ rule ∈ m.pairs, ∃ rest, rule.1 ≠ [] ∧ entry = rule.1 ++ rest
      ∧ m.replace entry = rule.2 ++ rest := by
  cases hr : m.rule? entry with
  | none => exact .inl ⟨rule?_eq_none_iff.1 hr, by simp [replace, replace?, hr]⟩
  | some rule =>
    obtain ⟨hmem, ha⟩ := rule?_mem hr
    obtain ⟨hne, rest, rfl⟩ := applies_iff.1 ha
    exact .inr ⟨rule, hmem, rest, hne, rfl, by simp [replace, replace?, hr]⟩

theorem replace_of_not_applies {entry : Text}
    (h : ∀ rule ∈ m.pairs, applies rule.1 entry = false) : m.replace entry = entry := by
  simp [replace, replace?, rule?_eq_none_iff.2 h]

/-- No rule applies to an entry that begins with a new prefix. -/
theorem Separated.not_applies (hm : m.Separated) {other : Text × Text} (ho : other ∈ m.pairs)
    (rest : Text) : ∀ rule ∈ m.pairs, applies rule.1 (other.2 ++ rest) = false := by
  intro rule hr
  rw [Bool.eq_false_iff]
  intro ha
  obtain ⟨hne, hp⟩ := applies_iff.1 ha
  -- of two beginnings of one text, one begins the other
  obtain h | h := List.prefix_or_prefix_of_prefix hp (List.prefix_append other.2 rest)
  · exact (hm rule hr other ho hne).1 h
  · exact (hm rule hr other ho hne).2 h

theorem Separated.replace_replace (hm : m.Separated) (entry : Text) :
    m.replace (m.replace entry) = m.replace entry := by
  obtain ⟨-, he⟩ | ⟨rule, hr, rest, -, -, he⟩ := replace_cases m entry
  · rw [he, he]
  · rw [he]
    exact replace_of_not_applies (hm.not_applies hr rest)

theorem nodup_replaceAll (m : Substitution) (entries : List Text) :
    (m.replaceAll entries).Nodup :=
  nodup_eraseDups _

theorem mem_replaceAll {entries : List Text} {entry : Text} :
    entry ∈ m.replaceAll entries ↔ ∃ e ∈ entries, m.replace e = entry := by
  rw [replaceAll, List.mem_eraseDups, List.mem_map]

/-- Replacing twice is replacing once. -/
theorem Separated.replaceAll_replaceAll (hm : m.Separated) (entries : List Text) :
    m.replaceAll (m.replaceAll entries) = m.replaceAll entries := by
  have hfixed : (m.replaceAll entries).map m.replace = m.replaceAll entries := by
    refine (List.map_congr_left fun entry h => ?_).trans (List.map_id _)
    obtain ⟨e, -, rfl⟩ := mem_replaceAll.1 h
    exact hm.replace_replace e
  rw [replaceAll, hfixed]
  exact eraseDups_of_nodup (nodup_replaceAll m entries)

end Rehome.Substitution
