import Rehome.Proofs.Rpath.FixedPoint
import Rehome.Proofs.Rpath.LongestPrefix

/-!
# One substitution after another

After a substitution, an entry begins with the new prefix that was put there, and a second
substitution sees no more of it than that. If the new prefixes can be told apart (`IsPrefixCode`)
and are the keys of the second substitution (`Continues`), the second one picks up just the prefix
that the first one has put, however the old prefixes are nested. So the two are one substitution
(`replace_replace_eq`), and the way back restores the entries (`replaceAll_replaceAll_eq`).
-/

namespace Rehome.Substitution

variable {m n direct : Substitution} {entry old new : Text}

/-- Whether no new prefix is empty, and none begins another one. Old prefixes may share theirs. -/
structure IsPrefixCode (m : Substitution) : Prop where
  ne_nil : ∀ rule ∈ m.pairs, rule.2 ≠ []
  eq_of_prefix : ∀ rule ∈ m.pairs, ∀ other ∈ m.pairs, rule.2 <+: other.2 → rule.2 = other.2

instance (m : Substitution) : Decidable m.IsPrefixCode :=
  decidable_of_iff
    ((∀ rule ∈ m.pairs, rule.2 ≠ [])
      ∧ ∀ rule ∈ m.pairs, ∀ other ∈ m.pairs, rule.2 <+: other.2 → rule.2 = other.2)
    ⟨fun h => ⟨h.1, h.2⟩, fun h => ⟨h.1, h.2⟩⟩

/-- Whether the keys of `n` are just the new prefixes of `m`. -/
def Continues (n m : Substitution) : Prop :=
  ∀ key, key ∈ n.keys ↔ ∃ rule ∈ m.pairs, rule.2 = key

/-- The old prefixes of `m`, with what `n` has for their new prefixes. -/
def andThen (m n : Substitution) : Substitution :=
  m.mapValues fun new => (n.get? new).getD new

theorem replace_of_isLongest {rest : Text} (h : m.IsLongest (old ++ rest) old)
    (hget : m.get? old = some new) : m.replace (old ++ rest) = new ++ rest := by
  have hr : m.rule? (old ++ rest) = some (old, new) := rule?_eq_some_iff.2 ⟨h, hget⟩
  rw [replace, replace?, hr, Option.map_some, Option.getD_some, List.drop_left]

section

variable (hkeys : n.Continues m)

include hkeys

theorem Continues.exists_get? (hget : m.get? old = some new) : ∃ final, n.get? new = some final :=
  OrderedMap.mem_keys_iff.1 ((hkeys new).2 ⟨(old, new), OrderedMap.get?_eq_some_iff.1 hget, rfl⟩)

theorem Continues.get?_andThen (old : Text) :
    (m.andThen n).get? old = (m.get? old).bind n.get? := by
  rw [andThen, OrderedMap.get?_mapValues]
  cases hget : m.get? old with
  | none => rfl
  | some new =>
    obtain ⟨final, hfinal⟩ := hkeys.exists_get? hget
    rw [Option.map_some, Option.bind_some, hfinal, Option.getD_some]

theorem Continues.mem_keys_iff (hd : ∀ old, direct.get? old = (m.get? old).bind n.get?)
    (key : Text) : key ∈ direct.keys ↔ key ∈ m.keys := by
  simp only [OrderedMap.mem_keys_iff, hd, Option.bind_eq_some_iff]
  constructor
  · rintro ⟨final, new, hget, -⟩
    exact ⟨new, hget⟩
  · rintro ⟨new, hget⟩
    obtain ⟨final, hfinal⟩ := hkeys.exists_get? hget
    exact ⟨final, new, hget, hfinal⟩

variable (hcode : m.IsPrefixCode)

include hcode

/-- Of the keys of `n`, only the new prefix that was put there begins an entry. -/
theorem Continues.isLongest (hget : m.get? old = some new) (rest : Text) :
    n.IsLongest (new ++ rest) new := by
  have hrule : (old, new) ∈ m.pairs := OrderedMap.get?_eq_some_iff.1 hget
  refine ⟨(hkeys new).2 ⟨_, hrule, rfl⟩, hcode.ne_nil _ hrule, List.prefix_append new rest, ?_⟩
  intro other ho _ hp hne
  obtain ⟨rule, hr, rfl⟩ := (hkeys other).1 ho
  -- two beginnings of one entry begin one another, and new prefixes that do are equal
  obtain h | h := List.prefix_or_prefix_of_prefix hp (List.prefix_append new rest)
  · exact absurd (hcode.eq_of_prefix _ hr _ hrule h) hne
  · exact absurd (hcode.eq_of_prefix _ hrule _ hr h).symm hne

/-- Replacing in an entry twice is replacing in it once, unless a key of `n` begins an entry
that `m` leaves alone. -/
theorem replace_replace_eq (hd : ∀ old, direct.get? old = (m.get? old).bind n.get?)
    (hkept : m.replace? entry = none → ∀ key ∈ n.keys, ¬ key <+: entry) :
    n.replace (m.replace entry) = direct.replace entry := by
  have hsame := hkeys.mem_keys_iff hd
  cases hr : m.rule? entry with
  | none =>
    have hm : m.replace? entry = none := by rw [replace?, hr, Option.map_none]
    have hn : n.rule? entry = none := rule?_eq_none_iff_keys.2 fun key hk _ => hkept hm key hk
    have hdirect : direct.rule? entry = none := rule?_eq_none_iff_keys.2 fun key hk =>
      rule?_eq_none_iff_keys.1 hr key ((hsame key).1 hk)
    simp only [replace, replace?, hr, hn, hdirect, Option.map_none, Option.getD_none]
  | some rule =>
    obtain ⟨old, new⟩ := rule
    obtain ⟨hlongest, hget⟩ := rule?_eq_some_iff.1 hr
    obtain ⟨final, hfinal⟩ := hkeys.exists_get? hget
    obtain ⟨rest, rfl⟩ := hlongest.isPrefix
    have hdirect : direct.get? old = some final := by rw [hd, hget, Option.bind_some, hfinal]
    rw [replace_of_isLongest hlongest hget,
      replace_of_isLongest (hkeys.isLongest hcode hget rest) hfinal,
      replace_of_isLongest ((isLongest_congr hsame).2 hlongest) hdirect]

end

/-- A substitution that puts each old prefix in its own place changes nothing. -/
theorem replace_of_fixed (h : ∀ old new, m.get? old = some new → new = old) (entry : Text) :
    m.replace entry = entry := by
  obtain ⟨-, he⟩ | ⟨⟨old, new⟩, hr, rest, -, rfl, he⟩ := replace_cases m entry
  · exact he
  · rw [he, h old new (OrderedMap.get?_eq_some_iff.2 hr)]

/-- Two moves of entries are one: if the new prefixes of the first are told apart and are the keys
of the second, it is the one that leads from each old prefix to where the second move puts it. If
the second move leads back, what is left are the entries without repetitions. -/
theorem replaceAll_replaceAll_eq (hcode : m.IsPrefixCode) (hkeys : n.Continues m)
    (entries : List Text)
    (hkept : ∀ entry ∈ entries, m.replace? entry = none → ∀ key ∈ n.keys, ¬ key <+: entry) :
    (∀ old, (m.andThen n).get? old = (m.get? old).bind n.get?)
    ∧ (∀ direct : Substitution, (∀ old, direct.get? old = (m.get? old).bind n.get?) →
      n.replaceAll (m.replaceAll entries) = direct.replaceAll entries)
    ∧ ((∀ rule ∈ m.pairs, n.get? rule.2 = some rule.1) →
      n.replaceAll (m.replaceAll entries) = entries.eraseDups) := by
  have hdirect : ∀ direct : Substitution, (∀ old, direct.get? old = (m.get? old).bind n.get?) →
      n.replaceAll (m.replaceAll entries) = direct.replaceAll entries := by
    intro direct hd
    have hentries : (entries.map m.replace).map n.replace = entries.map direct.replace := by
      rw [List.map_map]
      exact List.map_congr_left fun entry he => replace_replace_eq hkeys hcode hd (hkept entry he)
    rw [replaceAll, replaceAll, eraseDups_map_eraseDups, hentries]
    rfl
  refine ⟨hkeys.get?_andThen, hdirect, fun hback => ?_⟩
  have hfixed : (m.andThen n).replace = id := by
    refine funext (replace_of_fixed fun old final hfinal => ?_)
    rw [hkeys.get?_andThen, Option.bind_eq_some_iff] at hfinal
    obtain ⟨new, hget, hn⟩ := hfinal
    rw [hback (old, new) (OrderedMap.get?_eq_some_iff.1 hget)] at hn
    exact (Option.some.inj hn).symm
  rw [hdirect (m.andThen n) hkeys.get?_andThen, replaceAll, hfixed, List.map_id]

/-- Nested old prefixes, moved apart and then on or back. -/
theorem replaceAll_replaceAll_eq_of_nested :
    let build := "/tmp/build".toList
    let zlib := "/tmp/build/zlib".toList
    let m : Substitution := .ofList [(build, "/opt/base".toList), (zlib, "/opt/zlib".toList)]
    let onward : Substitution :=
      .ofList [("/opt/zlib".toList, "/usr".toList), ("/opt/base".toList, "/usr".toList)]
    let back : Substitution := .ofList [("/opt/base".toList, build), ("/opt/zlib".toList, zlib)]
    let entries := [zlib ++ "/lib".toList, build ++ "/lib".toList, "/usr/lib".toList,
      zlib ++ "/lib".toList]
    (m.IsPrefixCode ∧ onward.Continues m ∧ back.Continues m
      ∧ (∀ rule ∈ m.pairs, back.get? rule.2 = some rule.1))
    ∧ onward.replaceAll (m.replaceAll entries) = (m.andThen onward).replaceAll entries
    ∧ back.replaceAll (m.replaceAll entries) = entries.eraseDups := by
  intro build zlib m onward back entries
  have hcode : m.IsPrefixCode := by decide
  have honward : onward.Continues m := fun key => by
    have h : onward.keys = (m.pairs.map Prod.snd).reverse := by decide
    rw [h, List.mem_reverse, List.mem_map]
  have hback : back.Continues m := fun key => by
    have h : back.keys = m.pairs.map Prod.snd := by decide
    rw [h, List.mem_map]
  have hrestores : ∀ rule ∈ m.pairs, back.get? rule.2 = some rule.1 := by decide
  have hon := replaceAll_replaceAll_eq hcode honward entries (by decide)
  have hre := replaceAll_replaceAll_eq hcode hback entries (by decide)
  exact ⟨⟨hcode, honward, hback, hrestores⟩, hon.2.1 _ hon.1, hre.2.2 hrestores⟩

end Rehome.Substitution
