import Mathlib.Data.List.Infix
import Rehome.Proofs.Binary.AllOrNothing

/-!
# Nothing left to replace

Putting one text in the place of another can make that other one occur again, across the ends of
what was put there. If the texts have nothing in common that could reach across (`Apart`), all
occurrences are in what was copied, and there are none (`not_infix_of_replaced`). So one run through
the strings of a file leaves nothing for another one (`replaceInStrings_leaves_nothing`).
-/

namespace Rehome

namespace Binary

variable {α : Type} {old new : List α}

/-- Whether no occurrence of `old` in a text can have a part in common with an occurrence of `new`
there, other than one inside `new`: `new` is not inside `old`, and does not begin where `old` ends
or end where `old` begins. -/
structure Apart (old new : List α) : Prop where
  ne_nil : new ≠ []
  not_infix : ¬ new <:+: old
  not_prefix : ∀ part, part ≠ [] → part <:+ new → ¬ part <+: old
  not_suffix : ∀ part, part ≠ [] → part <+: new → ¬ part <:+ old

instance [DecidableEq α] (old new : List α) : Decidable (Apart old new) :=
  decidable_of_iff
    (new ≠ [] ∧ ¬ new <:+: old ∧ (∀ part ∈ new.tails, part ≠ [] → ¬ part <+: old)
      ∧ ∀ part ∈ new.inits, part ≠ [] → ¬ part <:+ old) <| by
    simp only [List.mem_tails, List.mem_inits]
    constructor
    · rintro ⟨hne, hinfix, hprefix, hsuffix⟩
      exact ⟨hne, hinfix, fun part hp hs => hprefix part hs hp,
        fun part hp hs => hsuffix part hs hp⟩
    · rintro ⟨hne, hinfix, hprefix, hsuffix⟩
      exact ⟨hne, hinfix, fun part hs hp => hprefix part hp hs,
        fun part hs hp => hsuffix part hp hs⟩

/-- Around `new`, a text occurs on one side or on the other. -/
theorem Apart.infix_append (h : Apart old new) (hlen : new.length ≤ old.length) {x y : List α}
    (ho : old <:+: x ++ (new ++ y)) : old <:+: x ∨ old <:+: y := by
  obtain hx | hrest | ⟨l, r, rfl, hl, hr⟩ := List.infix_append_iff.1 ho
  · exact .inl hx
  · obtain hnew | hy | ⟨l, r, rfl, hl, hr⟩ := List.infix_append_iff.1 hrest
    · exact absurd (hnew.eq_of_length_le hlen ▸ List.infix_refl old) h.not_infix
    · exact .inr hy
    · -- the end of `new` begins the text, so it is empty
      by_cases hnil : l = []
      · exact .inr (hnil ▸ hr.isInfix)
      · exact absurd (List.prefix_append l r) (h.not_prefix l hnil hl)
  · obtain hr' | hnew := List.prefix_or_prefix_of_prefix hr (List.prefix_append new y)
    · by_cases hnil : r = []
      · rw [hnil, List.append_nil]
        exact .inl hl.isInfix
      · exact absurd (List.suffix_append l r) (h.not_suffix r hnil hr')
    · exact absurd (hnew.isInfix.trans (List.suffix_append l r).isInfix) h.not_infix

theorem Apart.old_ne_nil (h : Apart old new) (hlen : new.length ≤ old.length) : old ≠ [] := by
  rintro rfl
  exact h.ne_nil (List.length_eq_zero_iff.1 (Nat.le_zero.1 hlen))

/-- Texts that are apart are apart as bytes. -/
theorem Apart.utf8 {old new : Text} (h : Apart old new) :
    Apart (Text.utf8 old) (Text.utf8 new) where
  ne_nil := mt Text.utf8_eq_nil_iff.1 h.ne_nil
  not_infix := mt Text.utf8_infix_iff.1 h.not_infix
  not_prefix part hne hs hp := by
    obtain ⟨part, rfl, hs, hp⟩ := Text.exists_of_utf8_overlap hs hp
    exact h.not_prefix part (mt Text.utf8_eq_nil_iff.2 hne) hs hp
  not_suffix part hne hp hs := by
    obtain ⟨part, rfl, hs, hp⟩ := Text.exists_of_utf8_overlap hs hp
    exact h.not_suffix part (mt Text.utf8_eq_nil_iff.2 hne) hp hs

section

variable {old new data before behind s text out tail result : Bytes}

theorem FirstAt.not_infix (hold : old ≠ []) (h : FirstAt old before behind) :
    ¬ old <:+: before := by
  rintro ⟨x, y, rfl⟩
  have hle := h x (y ++ (old ++ behind)) (by simp)
  have hpos := List.length_pos_iff.2 hold
  simp only [List.length_append] at hle
  omega

/-- Replacing a text by one that it is apart from leaves no occurrence. -/
theorem not_infix_of_replaced (hapart : Apart old new) (hlen : new.length ≤ old.length)
    {count : Nat} (h : Replaced old new count s text) : ¬ old <:+: text := by
  induction h with
  | done h => exact h
  | next first _ ih =>
    intro ho
    obtain hbefore | htext := hapart.infix_append hlen ho
    · exact first.not_infix (hapart.old_ne_nil hlen) hbefore
    · exact ih htext

section

variable (hold : old ≠ []) (hnul : 0 ∉ old)

include hold hnul

theorem not_infix_append_nuls (h : ¬ old <:+: s) (count : Nat) :
    ¬ old <:+: s ++ List.replicate count 0 := by
  have hnuls : ∀ part : Bytes, part ≠ [] → part <:+: List.replicate count 0 → 0 ∈ part := by
    intro part hne hp
    obtain ⟨b, rest, rfl⟩ := List.exists_cons_of_ne_nil hne
    obtain rfl := List.eq_of_mem_replicate (hp.subset List.mem_cons_self)
    exact List.mem_cons_self
  intro ho
  obtain hs | hzeros | ⟨l, r, rfl, hl, hr⟩ := List.infix_append_iff.1 ho
  · exact h hs
  · exact hnul (hnuls old hold hzeros)
  · by_cases hnil : r = []
    · rw [hnil, List.append_nil] at h
      exact h hl.isInfix
    · exact hnul (List.mem_append_right l (hnuls r hnil hr.isInfix))

theorem replaceStrings?_join_of_absent (htail : 0 ∉ tail) {ss : List Bytes}
    (hss : ∀ s ∈ ss, ¬ old <:+: s) : replaceStrings? old new (join ss tail) = none := by
  induction ss with
  | nil =>
    rw [join_nil, replaceStrings?_eq hold, occurrence?_eq_none htail]
    rfl
  | cons s ss ih =>
    obtain ⟨hs, hrest⟩ := List.forall_mem_cons.1 hss
    rw [join_cons, replaceStrings?_of_absent hold hnul hs, ih hrest]
    rfl

theorem forall_terminated_iff :
    (∀ s ∈ (Strings.ofBytes data).terminated, ¬ old <:+: s)
      ↔ replaceStrings? old new data = none := by
  have hsome := isSome_replaceStrings?_join hold hnul new (Strings.ofBytes data).nul_not_mem_tail
    (Strings.ofBytes data).nul_not_mem
  have hbytes : join _ _ = data := Strings.bytes_ofBytes data
  rw [hbytes] at hsome
  rw [← Option.not_isSome_iff_eq_none, hsome]
  simp

end

theorem not_infix_patch (hapart : Apart old new) (hlen : new.length ≤ old.length)
    (hnul : 0 ∉ old) (s : Bytes) : ¬ old <:+: patch old new s := by
  have hold := hapart.old_ne_nil hlen
  obtain ⟨count, text, hr, hpatch⟩ := patched_patch hold hlen s
  rw [hpatch]
  exact not_infix_append_nuls hold hnul (not_infix_of_replaced hapart hlen hr) _

/-- Whatever strings the patched ones fall into at the NULs of `new`, there is nothing to replace in
them. -/
theorem replaceStrings?_of_replaced (hapart : Apart old new) (hlen : new.length ≤ old.length)
    (hnul : 0 ∉ old) (h : replaceStrings? old new data = some result) :
    replaceStrings? old new result = none := by
  have hold := hapart.old_ne_nil hlen
  have hresult := getD_replaceStrings?_join hold hnul new (Strings.ofBytes data).nul_not_mem_tail
    (Strings.ofBytes data).nul_not_mem
  have hbytes : join _ _ = data := Strings.bytes_ofBytes data
  rw [hbytes, h, Option.getD_some] at hresult
  rw [hresult]
  refine replaceStrings?_join_of_absent hold hnul (Strings.ofBytes data).nul_not_mem_tail ?_
  intro s hs
  obtain ⟨string, -, rfl⟩ := List.mem_map.1 hs
  exact not_infix_patch hapart hlen hnul string

end

end Binary

namespace Host

open Text Binary

/-- Once the strings of a file were replaced in, none of them contains the old text, if it is apart
from the new one and has no NUL in it. Doing the same again changes nothing. -/
theorem replaceInStrings_leaves_nothing {h h' : Host} {p : Path} {old new : Text}
    (hnul : '\x00' ∉ old) (hapart : Apart old new)
    (hdone : h.replaceInStrings p old new = (.ok true, h')) :
    ∃ bytes, h'.read p = .ok bytes
      ∧ (∀ s ∈ (Strings.ofBytes bytes).terminated, ¬ utf8 old <:+: s)
      ∧ h'.replaceInStrings p old new = (.ok false, h') := by
  obtain ⟨bytes, result, hold, -, hlen, hresult, hr'⟩ := exists_of_replaceInStrings hdone
  have hold' : utf8 old ≠ [] := mt utf8_eq_nil_iff.1 hold
  have hnul' : 0 ∉ utf8 old := mt nul_mem_utf8_iff.1 hnul
  have hnone := replaceStrings?_of_replaced hapart.utf8 hlen hnul' hresult
  refine ⟨result, hr', (forall_terminated_iff hold' hnul').2 hnone, ?_⟩
  refine replaceInStrings_of_unchanged hold hr' (replace_of_unterminated hold' hlen ?_)
  rw [← isSome_replaceStrings?_iff hold' (utf8 new), hnone]
  simp

/-- A library in which the text occurs twice in one string, and once more where no NUL follows. -/
theorem replaceInStrings_leaves_nothing_of_library :
    let p : Path := ⟨"/lib/a.so".toList⟩
    let data : Bytes := utf8 "/build/tmp/lib:/build/tmp\x00/build/tmp".toList
    let host : Host := ⟨.ofList [(["lib".toList], .directory),
      (["lib".toList, "a.so".toList], .file (.data data) true)], .existing [], [], []⟩
    let old := "/build/tmp".toList
    let new := "/opt".toList
    let host' := (host.replaceInStrings p old new).2
    ('\x00' ∉ old ∧ Apart old new ∧ host.replaceInStrings p old new = (.ok true, host'))
    ∧ ∃ bytes, host'.read p = .ok bytes
      ∧ (∀ s ∈ (Strings.ofBytes bytes).terminated, ¬ utf8 old <:+: s)
      ∧ host'.replaceInStrings p old new = (.ok false, host') := by
  intro p data host old new host'
  have hnul : '\x00' ∉ old := by decide
  have hapart : Apart old new := by decide
  have hdone : host.replaceInStrings p old new = (.ok true, host') :=
    Prod.ext (by decide +kernel) rfl
  exact ⟨⟨hnul, hapart, hdone⟩, replaceInStrings_leaves_nothing hnul hapart hdone⟩

end Host

end Rehome
