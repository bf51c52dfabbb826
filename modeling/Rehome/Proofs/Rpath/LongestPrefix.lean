import Rehome.Rpath.Substitution

/-!
# The longest old prefix

Old prefixes that begin the same entry begin one another, so those of equal length are equal, and at
most one of them is the longest (`IsLongest.unique`). It is the one whose rule counts
(`rule?_eq_some_iff`, `rewrites_iff`). What a substitution does is therefore a matter of which value
it has at which key, and not of the order in which its rules were inserted (`replace?_longest`).
-/

namespace Rehome.Substitution

variable {m n : Substitution} {entry old other new : Text}

/-- Whether `old` is longer than all other keys that begin the entry. The empty key does not
count. -/
structure IsLongest (m : Substitution) (entry old : Text) : Prop where
  mem_keys : old ∈ m.keys
  ne_nil : old ≠ []
  isPrefix : old <+: entry
  length_lt : ∀ other ∈ m.keys, other ≠ [] → other <+: entry → other ≠ old →
    other.length < old.length

theorem IsLongest.unique (h : m.IsLongest entry old) (ho : m.IsLongest entry other) :
    other = old := by
  apply Decidable.byContradiction
  intro hne
  have hlt := h.length_lt other ho.mem_keys ho.ne_nil ho.isPrefix hne
  have hgt := ho.length_lt old h.mem_keys h.ne_nil h.isPrefix fun e => hne e.symm
  omega

/-- The rule that counts is the longest. -/
theorem isLongest_of_rule? (h : m.rule? entry = some (old, new)) : m.IsLongest entry old := by
  obtain ⟨hmem, happlies⟩ := rule?_mem h
  obtain ⟨hne, hprefix⟩ := applies_iff.1 happlies
  refine ⟨OrderedMap.mem_keys_of_mem hmem, hne, hprefix, fun other ho hone hopre hother => ?_⟩
  obtain ⟨value, hvalue⟩ := OrderedMap.mem_keys_iff.1 ho
  have hle : other.length ≤ old.length :=
    length_le_of_rule? h (OrderedMap.get?_eq_some_iff.1 hvalue) (applies_iff.2 ⟨hone, hopre⟩)
  -- two beginnings of one entry that are equally long are equal
  have hlen : other.length ≠ old.length := fun e =>
    hother ((List.prefix_of_prefix_length_le hopre hprefix hle).eq_of_length e)
  omega

/-- An entry has a rule if a key begins it. -/
theorem exists_rule? (hk : old ∈ m.keys) (hne : old ≠ []) (hp : old <+: entry) :
    ∃ rule, m.rule? entry = some rule := by
  obtain ⟨new, hnew⟩ := OrderedMap.mem_keys_iff.1 hk
  rw [← Option.ne_none_iff_exists', ne_eq, rule?_eq_none_iff]
  intro hnone
  have happlies := hnone (old, new) (OrderedMap.get?_eq_some_iff.1 hnew)
  rw [applies_iff.2 ⟨hne, hp⟩] at happlies
  cases happlies

theorem rule?_eq_some_iff :
    m.rule? entry = some (old, new) ↔ m.IsLongest entry old ∧ m.get? old = some new := by
  constructor
  · intro h
    exact ⟨isLongest_of_rule? h, OrderedMap.get?_eq_some_iff.2 (rule?_mem h).1⟩
  · rintro ⟨hl, hget⟩
    obtain ⟨⟨old', new'⟩, hr⟩ := exists_rule? hl.mem_keys hl.ne_nil hl.isPrefix
    obtain rfl : old' = old := hl.unique (isLongest_of_rule? hr)
    have hget' : m.get? old' = some new' := OrderedMap.get?_eq_some_iff.2 (rule?_mem hr).1
    obtain rfl : new' = new := Option.some.inj (hget'.symm.trans hget)
    exact hr

theorem rule?_eq_none_iff_keys :
    m.rule? entry = none ↔ ∀ old ∈ m.keys, old ≠ [] → ¬ old <+: entry := by
  constructor
  · intro h old hk hne hp
    obtain ⟨rule, hr⟩ := exists_rule? hk hne hp
    rw [h] at hr
    cases hr
  · intro h
    refine rule?_eq_none_iff.2 fun rule hr => Bool.eq_false_iff.2 fun happlies => ?_
    obtain ⟨hne, hp⟩ := applies_iff.1 happlies
    exact h rule.1 (OrderedMap.mem_keys_of_mem hr) hne hp

/-- Which key is the longest does not depend on the values. -/
theorem isLongest_congr (hkeys : ∀ key, key ∈ m.keys ↔ key ∈ n.keys) :
    m.IsLongest entry old ↔ n.IsLongest entry old := by
  constructor
  · rintro ⟨hk, hne, hp, hlt⟩
    exact ⟨(hkeys old).1 hk, hne, hp, fun other ho => hlt other ((hkeys other).2 ho)⟩
  · rintro ⟨hk, hne, hp, hlt⟩
    exact ⟨(hkeys old).2 hk, hne, hp, fun other ho => hlt other ((hkeys other).1 ho)⟩

section

variable (h : ∀ key, m.get? key = n.get? key)

include h

theorem keys_congr (key : Text) : key ∈ m.keys ↔ key ∈ n.keys := by
  rw [OrderedMap.mem_keys_iff, OrderedMap.mem_keys_iff, h]

theorem rule?_congr (entry : Text) : m.rule? entry = n.rule? entry := by
  refine Option.ext fun ⟨old, new⟩ => ?_
  rw [rule?_eq_some_iff, rule?_eq_some_iff, isLongest_congr (keys_congr h), h]

theorem replace?_congr (entry : Text) : m.replace? entry = n.replace? entry := by
  rw [replace?, replace?, rule?_congr h]

theorem replaceAll_congr (entries : List Text) : m.replaceAll entries = n.replaceAll entries := by
  have hreplace : m.replace = n.replace := funext fun entry => by
    rw [replace, replace, replace?_congr h]
  rw [replaceAll, replaceAll, hreplace]

end

/-- An entry is left without a replacement just if no key begins it, and otherwise has the longest
one replaced by its value. So substitutions that see the same value at every key, whatever they were
built from, do the same. -/
theorem replace?_longest (m : Substitution) :
    (∀ entry : Text,
      (m.replace? entry = none ↔ ∀ old ∈ m.keys, old ≠ [] → ¬ old <+: entry)
      ∧ ((∃ old ∈ m.keys, old ≠ [] ∧ old <+: entry) →
        ∃ old new rest, m.IsLongest entry old ∧ (∀ other, m.IsLongest entry other → other = old)
          ∧ m.get? old = some new ∧ entry = old ++ rest ∧ m.replace? entry = some (new ++ rest)))
    ∧ ∀ n : Substitution, (∀ key, m.get? key = n.get? key) →
      (∀ entry, m.replace? entry = n.replace? entry)
      ∧ ∀ entries, m.replaceAll entries = n.replaceAll entries := by
  refine ⟨fun entry => ⟨?_, ?_⟩, fun n h => ⟨replace?_congr h, replaceAll_congr h⟩⟩
  · rw [replace?, Option.map_eq_none_iff, rule?_eq_none_iff_keys]
  · rintro ⟨key, hk, hne, hp⟩
    obtain ⟨⟨old, new⟩, hr⟩ := exists_rule? hk hne hp
    obtain ⟨hl, hget⟩ := rule?_eq_some_iff.1 hr
    obtain ⟨rest, rfl⟩ := hl.isPrefix
    refine ⟨old, new, rest, hl, fun other ho => hl.unique ho, hget, rfl, ?_⟩
    rw [replace?, hr, Option.map_some, List.drop_left]

/-- The same two rules, once with a value that is replaced later and once in the other order. -/
theorem replace?_longest_of_reordered :
    let base := "/tmp/build".toList
    let zlib := "/tmp/build/zlib".toList
    let m : Substitution :=
      .ofList [(base, "/opt".toList), (zlib, "/x".toList), (zlib, "/opt/z".toList)]
    let n : Substitution := .ofList [(zlib, "/opt/z".toList), (base, "/opt".toList)]
    let entry := "/tmp/build/zlib/lib".toList
    ((∃ old ∈ m.keys, old ≠ [] ∧ old <+: entry) ∧ (∀ key, m.get? key = n.get? key) ∧ m ≠ n)
    ∧ (∃ old new rest, m.IsLongest entry old ∧ (∀ other, m.IsLongest entry other → other = old)
      ∧ m.get? old = some new ∧ entry = old ++ rest ∧ m.replace? entry = some (new ++ rest))
    ∧ (∀ entry, m.replace? entry = n.replace? entry)
    ∧ ∀ entries, m.replaceAll entries = n.replaceAll entries := by
  intro base zlib m n entry
  have hbegins : ∃ old ∈ m.keys, old ≠ [] ∧ old <+: entry := ⟨base, by decide⟩
  have hget : ∀ key, m.get? key = n.get? key := by
    intro key
    have hne : zlib ≠ base := by decide
    simp only [m, n, OrderedMap.ofList, OrderedMap.insertAll, List.foldl_cons, List.foldl_nil,
      OrderedMap.get?_insert, OrderedMap.get?_empty]
    by_cases hz : key = zlib
    · simp only [hz, if_true, if_neg hne]
    · simp only [if_neg hz]
  obtain ⟨hentry, hmaps⟩ := replace?_longest m
  exact ⟨⟨hbegins, hget, by decide⟩, (hentry entry).2 hbegins, hmaps n hget⟩

end Rehome.Substitution
