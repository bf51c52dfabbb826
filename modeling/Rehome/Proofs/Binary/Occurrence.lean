import Rehome.Binary.Terminated

/-!
# Occurrences from left to right

`cut?` finds the first occurrence of a text and misses none (`cut?_eq_none_iff`,
`firstAt_of_cut?`). `Replaced` says what it is to replace a text wherever it occurs, from left to
right and without overlaps; it leaves one choice of a result (`Replaced.unique`), and `replaceAll`
computes it (`exists_replaced`).
-/

namespace Rehome.Binary

variable {old new data before behind s out : Bytes}

/-! ## The first occurrence -/

/-- No occurrence of `old` begins earlier than the one behind `before`. -/
def FirstAt (old before behind : Bytes) : Prop :=
  ∀ pre post, before ++ (old ++ behind) = pre ++ (old ++ post) → before.length ≤ pre.length

theorem cut?_eq_none_iff : cut? old data = none ↔ ¬ old <:+: data := by
  induction data with
  | nil => by_cases h : old = [] <;> simp [cut?, h]
  | cons b bytes ih =>
    rw [cut?, List.infix_cons_iff]
    split
    · rename_i h
      simp [List.isPrefixOf_iff_prefix.1 h]
    · rename_i h
      rw [List.isPrefixOf_iff_prefix] at h
      simp [h, ih]

theorem exists_cut?_of_present (h : old <:+: data) :
    ∃ before behind, cut? old data = some (before, behind) := by
  cases hc : cut? old data with
  | none => exact absurd h (cut?_eq_none_iff.1 hc)
  | some parts => exact ⟨parts.1, parts.2, rfl⟩

theorem firstAt_of_cut? (h : cut? old data = some (before, behind)) :
    FirstAt old before behind := by
  induction data generalizing before behind with
  | nil =>
    obtain ⟨-, rfl, -⟩ : old = [] ∧ before = [] ∧ behind = [] := by simpa [cut?, eq_comm] using h
    exact fun pre _ _ => Nat.zero_le pre.length
  | cons b bytes ih =>
    have hdata := eq_append_of_cut? h
    unfold cut? at h
    split at h
    · cases h
      exact fun pre _ _ => Nat.zero_le pre.length
    · rename_i hp
      obtain ⟨⟨x, y⟩, hxy, e⟩ := Option.map_eq_some_iff.1 h
      cases e
      intro pre post heq
      cases pre with
      | nil =>
        -- an occurrence at the very start would have been found
        rw [← hdata] at heq
        exact absurd (List.isPrefixOf_iff_prefix.2 ⟨post, heq.symm⟩) hp
      | cons c pre =>
        rw [List.cons_append, List.cons_append, List.cons.injEq] at heq
        exact Nat.succ_le_succ (ih hxy pre post heq.2)

/-- The first occurrence in a text stays the first when the text goes on. -/
theorem cut?_append (h : cut? old s = some (before, behind)) (t : Bytes) :
    cut? old (s ++ t) = some (before, behind ++ t) := by
  induction s generalizing before behind with
  | nil =>
    obtain ⟨rfl, rfl, rfl⟩ : old = [] ∧ before = [] ∧ behind = [] := by
      simpa [cut?, eq_comm] using h
    cases t <;> simp [cut?]
  | cons b bytes ih =>
    unfold cut? at h
    split at h
    · rename_i hp
      cases h
      have hp' := List.isPrefixOf_iff_prefix.1 hp
      have hpt : old.isPrefixOf (b :: bytes ++ t) = true :=
        List.isPrefixOf_iff_prefix.2 (hp'.trans (List.prefix_append _ t))
      rw [List.cons_append] at hpt ⊢
      rw [cut?, if_pos hpt, ← List.cons_append, List.drop_append_of_le_length hp'.length_le]
    · rename_i hp
      obtain ⟨⟨x, y⟩, hxy, e⟩ := Option.map_eq_some_iff.1 h
      cases e
      -- an occurrence at the start that needs bytes of `t` would be longer than the text
      have hlen : old.length ≤ (b :: bytes).length := by
        have := congrArg List.length (eq_append_of_cut? hxy)
        simp only [List.length_append, List.length_cons] at this ⊢
        omega
      have hpt : ¬ old.isPrefixOf (b :: (bytes ++ t)) = true := fun hpt =>
        hp (List.isPrefixOf_iff_prefix.2 (List.prefix_of_prefix_length_le
          (List.isPrefixOf_iff_prefix.1 hpt) (List.prefix_append (b :: bytes) t) hlen))
      rw [List.cons_append, cut?, if_neg hpt, ih hxy]
      rfl

/-! ## Replacing all occurrences -/

/-- `out` is `s` with `count` occurrences of `old` replaced by `new`: the first one, the first one
behind that, and so on until none is left. -/
inductive Replaced (old new : Bytes) : (count : Nat) → (s out : Bytes) → Prop
  | done {s : Bytes} (h : ¬ old <:+: s) : Replaced old new 0 s s
  | next {count : Nat} {before behind out : Bytes} (first : FirstAt old before behind)
    (h : Replaced old new count behind out) :
    Replaced old new (count + 1) (before ++ (old ++ behind)) (before ++ (new ++ out))

theorem FirstAt.unique {before' behind' : Bytes} (h : FirstAt old before behind)
    (h' : FirstAt old before' behind')
    (heq : before ++ (old ++ behind) = before' ++ (old ++ behind')) :
    before = before' ∧ behind = behind' := by
  have hlen := Nat.le_antisymm (h _ _ heq) (h' _ _ heq.symm)
  obtain ⟨hb, hrest⟩ := List.append_inj heq hlen
  exact ⟨hb, List.append_cancel_left hrest⟩

/-- There is one way to replace all occurrences. -/
theorem Replaced.unique {count count' : Nat} {out' : Bytes} (h : Replaced old new count s out)
    (h' : Replaced old new count' s out') : count = count' ∧ out = out' := by
  induction h generalizing count' out' with
  | done h =>
    cases h' with
    | done => exact ⟨rfl, rfl⟩
    | @next _ before behind _ _ _ => exact absurd (List.infix_append' before old behind) h
  | @next count before behind out first _ ih =>
    generalize hs : before ++ (old ++ behind) = s at h'
    cases h' with
    | done h => exact absurd (hs ▸ List.infix_append' before old behind) h
    | next first' h' =>
      obtain ⟨rfl, rfl⟩ := first.unique first' hs
      obtain ⟨rfl, rfl⟩ := ih h'
      exact ⟨rfl, rfl⟩

theorem Replaced.length_add {count : Nat} (hlen : new.length ≤ old.length)
    (h : Replaced old new count s out) :
    out.length + count * (old.length - new.length) = s.length := by
  induction h with
  | done => simp
  | next _ _ ih =>
    simp only [List.length_append, Nat.succ_mul]
    omega

theorem replaceAfter_eq (old new : Bytes) (skip : Nat) (data : Bytes) :
    replaceAfter old new skip data = replaceAll old new (data.drop skip) := by
  induction skip generalizing data with
  | zero => rfl
  | succ skip ih =>
    cases data with
    | nil => rfl
    | cons b bytes => exact ih bytes

theorem replaceAll_of_cut? (hold : old ≠ []) (h : cut? old data = some (before, behind)) :
    replaceAll old new data = before ++ (new ++ replaceAll old new behind) := by
  induction data generalizing before behind with
  | nil => simp [cut?, hold] at h
  | cons b bytes ih =>
    unfold cut? at h
    rw [replaceAll, replaceAfter]
    split at h
    · rename_i hp
      cases h
      obtain ⟨c, cs, rfl⟩ := List.exists_cons_of_ne_nil hold
      rw [if_pos hp, replaceAfter_eq]
      rfl
    · rename_i hp
      obtain ⟨⟨x, y⟩, hxy, e⟩ := Option.map_eq_some_iff.1 h
      cases e
      rw [if_neg hp, ← replaceAll, ih hxy]
      rfl

theorem replaceAll_of_absent (h : ¬ old <:+: data) : replaceAll old new data = data := by
  induction data with
  | nil => rfl
  | cons b bytes ih =>
    rw [List.infix_cons_iff, not_or] at h
    rw [replaceAll, replaceAfter, if_neg fun hp => h.1 (List.isPrefixOf_iff_prefix.1 hp),
      ← replaceAll, ih h.2]

theorem exists_replaced (hold : old ≠ []) (new s : Bytes) :
    ∃ count, Replaced old new count s (replaceAll old new s) := by
  -- what is behind an occurrence is shorter
  induction hn : s.length using Nat.strongRecOn generalizing s with
  | _ n ih =>
    by_cases h : old <:+: s
    · obtain ⟨before, behind, hc⟩ := exists_cut?_of_present h
      have hs := eq_append_of_cut? hc
      have hlen : behind.length < n := by
        have := List.length_pos_iff.2 hold
        have := congrArg List.length hs
        simp only [List.length_append] at this
        omega
      obtain ⟨count, hr⟩ := ih _ hlen behind rfl
      refine ⟨count + 1, ?_⟩
      rw [replaceAll_of_cut? hold hc, hs]
      exact .next (firstAt_of_cut? hc) hr
    · rw [replaceAll_of_absent h]
      exact ⟨0, .done h⟩

end Rehome.Binary
