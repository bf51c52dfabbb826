import Rehome.Host.Inspect
import Rehome.Host.ReadBack
import Rehome.Proofs.Binary.Stringwise
import Rehome.Proofs.Text.Utf8

/-!
# Replacing in a file, all or nothing

Whether the strings of a file are replaced in is decided at the first occurrence of the old text: if
no NUL is behind that one, none is behind any other (`isSome_replaceStrings?_iff`). What is refused
or comes to nothing leaves the file alone, and what is replaced keeps its length
(`replaceInStrings_all_or_nothing`).
-/

namespace Rehome

namespace Binary

variable {old new data before behind result : Bytes}

/-- Whether `old` occurs in the data with a NUL somewhere behind it. -/
def OccursTerminated (old data : Bytes) : Prop :=
  ∃ i j : Nat, old <+: data.drop i ∧ i + old.length ≤ j ∧ data[j]? = some 0

theorem occursTerminated_iff :
    OccursTerminated old data ↔ ∃ before behind, data = before ++ (old ++ behind) ∧ 0 ∈ behind := by
  constructor
  · rintro ⟨i, j, ⟨behind, hdrop⟩, hj, hnul⟩
    refine ⟨data.take i, behind, by rw [hdrop, List.take_append_drop], ?_⟩
    obtain ⟨k, rfl⟩ := Nat.exists_eq_add_of_le hj
    rw [Nat.add_assoc, ← List.getElem?_drop, ← hdrop, List.getElem?_append_right (by omega),
      Nat.add_sub_cancel_left] at hnul
    exact List.mem_of_getElem? hnul
  · rintro ⟨before, behind, rfl, hnul⟩
    obtain ⟨k, hk⟩ := List.mem_iff_getElem?.1 hnul
    refine ⟨before.length, before.length + (old.length + k), ?_, by omega, ?_⟩
    · rw [List.drop_left]
      exact List.prefix_append old behind
    · rw [← List.getElem?_drop, List.drop_left, List.getElem?_append_right (by omega),
        Nat.add_sub_cancel_left, hk]

theorem isSome_occurrence?_of_cut? (h : cut? old data = some (before, behind)) :
    (occurrence? old data).isSome ↔ 0 ∈ behind := by
  simp only [occurrence?, h]
  cases hd : behind.dropWhile (· ≠ 0) with
  | nil =>
    have hno := List.dropWhile_eq_nil_iff.1 hd
    simp only [Option.isSome_none, Bool.false_eq_true, false_iff]
    exact fun hmem => by simpa using hno 0 hmem
  | cons b rest =>
    have hb := List.head?_dropWhile_not (· ≠ 0) behind
    rw [hd] at hb
    have hmem : b ∈ behind := (List.dropWhile_sublist _).subset (hd ▸ List.mem_cons_self)
    obtain rfl : b = 0 := by simpa using hb
    simpa using hmem

/-- What is behind another occurrence is also behind the first one. -/
theorem FirstAt.suffix {before' behind' : Bytes} (h : FirstAt old before behind)
    (heq : before ++ (old ++ behind) = before' ++ (old ++ behind')) : behind' <:+ behind := by
  have hle := h _ _ heq
  have hlen := congrArg List.length heq
  simp only [List.length_append] at hlen
  have hsuffix : ∀ x y : Bytes, y <:+ x ++ (old ++ y) := fun x y =>
    (List.suffix_append old y).trans (List.suffix_append x _)
  have hother := hsuffix before' behind'
  rw [← heq] at hother
  exact List.suffix_of_suffix_length_le hother (hsuffix before behind) (by omega)

/-- There is a string to replace in as soon as some occurrence has a NUL behind it. -/
theorem isSome_occurrence?_iff : (occurrence? old data).isSome ↔ OccursTerminated old data := by
  rw [occursTerminated_iff]
  by_cases h : old <:+: data
  · obtain ⟨before, behind, hc⟩ := exists_cut?_of_present h
    have hdata := eq_append_of_cut? hc
    rw [isSome_occurrence?_of_cut? hc]
    constructor
    · exact fun hnul => ⟨before, behind, hdata, hnul⟩
    · rintro ⟨before', behind', hdata', hnul⟩
      exact ((firstAt_of_cut? hc).suffix (hdata.symm.trans hdata')).subset hnul
  · have hnone : occurrence? old data = none := by rw [occurrence?, cut?_eq_none_iff.2 h]
    rw [hnone]
    simp only [Option.isSome_none, Bool.false_eq_true, false_iff]
    rintro ⟨before, behind, rfl, -⟩
    exact h (List.infix_append' before old behind)

theorem isSome_replaceStrings?_iff (hold : old ≠ []) (new data : Bytes) :
    (replaceStrings? old new data).isSome ↔ OccursTerminated old data := by
  rw [replaceStrings?_eq hold, Option.isSome_map, isSome_occurrence?_iff]

/-- Each string keeps its room, so the data keeps its length. -/
theorem length_replaceStrings? (hold : old ≠ []) (hlen : new.length ≤ old.length)
    (h : replaceStrings? old new data = some result) : result.length = data.length := by
  -- the data behind an occurrence is shorter
  induction hn : data.length using Nat.strongRecOn generalizing data result with
  | _ n ih =>
    rw [replaceStrings?_eq hold, Option.map_eq_some_iff] at h
    obtain ⟨o, ho, rfl⟩ := h
    have hpatch := (patched_patch hold hlen o.string).length_eq hlen
    have hrest : ((replaceStrings? old new o.rest).getD o.rest).length = o.rest.length := by
      cases hr : replaceStrings? old new o.rest with
      | none => rfl
      | some rest => exact ih _ (hn ▸ Occurrence.length_rest_lt hold ho) hr rfl
    have hdata := congrArg List.length (Occurrence.append_eq ho)
    simp only [List.length_append] at hdata ⊢
    omega

/-! ## What a replacement comes to -/

theorem replace_of_absent (h : ¬ old <:+: data) : replace old new data = .unchanged := by
  rw [replace, cut?_eq_none_iff.2 h]
  rfl

theorem replace_of_longer (h : old <:+: data) (hlen : old.length < new.length) :
    replace old new data = .tooLong := by
  obtain ⟨before, behind, hc⟩ := exists_cut?_of_present h
  rw [replace, hc, if_neg (by simp), if_pos hlen]

theorem replace_of_occurs (h : old <:+: data) (hlen : new.length ≤ old.length) :
    replace old new data = ((replaceStrings? old new data).map .replaced).getD .unchanged := by
  obtain ⟨before, behind, hc⟩ := exists_cut?_of_present h
  rw [replace, hc, if_neg (by simp), if_neg (Nat.not_lt.2 hlen)]
  cases replaceStrings? old new data <;> rfl

theorem OccursTerminated.infix (h : OccursTerminated old data) : old <:+: data := by
  obtain ⟨before, behind, rfl, -⟩ := occursTerminated_iff.1 h
  exact List.infix_append' before old behind

theorem replace_of_terminated (hold : old ≠ []) (hlen : new.length ≤ old.length)
    (h : OccursTerminated old data) :
    ∃ result, replaceStrings? old new data = some result
      ∧ replace old new data = .replaced result := by
  obtain ⟨result, hr⟩ := Option.isSome_iff_exists.1 ((isSome_replaceStrings?_iff hold new data).2 h)
  exact ⟨result, hr, by rw [replace_of_occurs h.infix hlen, hr]; rfl⟩

/-- Nothing is done if `old` does not occur in front of a NUL, unless `new` is refused. -/
theorem replace_of_unterminated (hold : old ≠ []) (hlen : new.length ≤ old.length)
    (h : ¬ OccursTerminated old data) : replace old new data = .unchanged := by
  by_cases hp : old <:+: data
  · have hnone : replaceStrings? old new data = none := by
      rwa [← Option.not_isSome_iff_eq_none, isSome_replaceStrings?_iff hold]
    rw [replace_of_occurs hp hlen, hnone]
    rfl
  · exact replace_of_absent hp

end Binary

namespace Host

open Text Binary

variable {h : Host} {p : Path} {old new : Text} {bytes : Bytes}

theorem replaceInStrings_of_unreadable (hold : old ≠ []) {error : Files.AccessError}
    (hr : h.read p = .error error) (new : Text) :
    h.replaceInStrings p old new = (.error (.unreadable p error.message.toList), h) := by
  simp only [replaceInStrings, if_neg hold, readBinary, hr]

section

variable (hold : old ≠ []) (hr : h.read p = .ok bytes)

include hold hr

theorem replaceInStrings_of_unchanged
    (hb : Binary.replace (utf8 old) (utf8 new) bytes = .unchanged) :
    h.replaceInStrings p old new = (.ok false, h) := by
  simp only [replaceInStrings, if_neg hold, readBinary, hr, hb]

theorem replaceInStrings_of_tooLong
    (hb : Binary.replace (utf8 old) (utf8 new) bytes = .tooLong) :
    h.replaceInStrings p old new = (.error (.prefixTooLong p old new), h) := by
  simp only [replaceInStrings, if_neg hold, readBinary, hr, hb]

/-- A file that was read can be written, and then reads as what was put there. -/
theorem replaceInStrings_of_replaced {result : Bytes}
    (hb : Binary.replace (utf8 old) (utf8 new) bytes = .replaced result) :
    ∃ h', h.replaceInStrings p old new = (.ok true, h') ∧ h.write? p (.data result) = some h'
      ∧ h'.read p = .ok result := by
  obtain ⟨h', hw⟩ := exists_of_write? hr (.data result)
  refine ⟨h', ?_, hw, read_of_write? hr hw⟩
  simp only [replaceInStrings, if_neg hold, readBinary, hr, hb, write?_eq_some_iff.1 hw]

end

/-- A file is changed only if the strings in it are replaced in. -/
theorem exists_of_replaceInStrings {h' : Host}
    (hdone : h.replaceInStrings p old new = (.ok true, h')) :
    ∃ bytes result, old ≠ [] ∧ h.read p = .ok bytes ∧ (utf8 new).length ≤ (utf8 old).length
      ∧ replaceStrings? (utf8 old) (utf8 new) bytes = some result ∧ h'.read p = .ok result := by
  by_cases hold : old = []
  · subst hold
    cases hdone
  cases hr : h.read p with
  | error error =>
    rw [replaceInStrings_of_unreadable hold hr] at hdone
    cases hdone
  | ok bytes =>
    by_cases ho : utf8 old <:+: bytes
    · rcases Nat.lt_or_ge (utf8 old).length (utf8 new).length with hlt | hlen
      · rw [replaceInStrings_of_tooLong hold hr (replace_of_longer ho hlt)] at hdone
        cases hdone
      · have hb := replace_of_occurs ho hlen
        cases hresult : replaceStrings? (utf8 old) (utf8 new) bytes with
        | none =>
          rw [hresult] at hb
          rw [replaceInStrings_of_unchanged hold hr hb] at hdone
          cases hdone
        | some result =>
          rw [hresult] at hb
          obtain ⟨h'', hdone', -, hr'⟩ := replaceInStrings_of_replaced hold hr hb
          rw [hdone', Prod.mk.injEq] at hdone
          exact ⟨bytes, result, hold, rfl, hlen, hresult, hdone.2 ▸ hr'⟩
    · rw [replaceInStrings_of_unchanged hold hr (replace_of_absent ho)] at hdone
      cases hdone

/-- What a replacement in a file comes to, in the order of the checks: whatever `old` and `new` hold
and however the file came to be, an error or no replacement leaves all files alone, and a
replacement changes that file only and keeps its length. -/
theorem replaceInStrings_all_or_nothing (h : Host) (p : Path) (old new : Text) :
    (old = [] → h.replaceInStrings p old new
      = (.error (.invalidRequest "old prefix must not be empty".toList), h))
    ∧ (old ≠ [] →
      (∀ error, h.read p = .error error → h.replaceInStrings p old new
        = (.error (.unreadable p error.message.toList), h))
      ∧ ∀ bytes, h.read p = .ok bytes →
        (¬ utf8 old <:+: bytes → h.replaceInStrings p old new = (.ok false, h))
        ∧ (utf8 old <:+: bytes → (utf8 old).length < (utf8 new).length →
          h.replaceInStrings p old new = (.error (.prefixTooLong p old new), h))
        ∧ (utf8 old <:+: bytes → (utf8 new).length ≤ (utf8 old).length →
          (¬ OccursTerminated (utf8 old) bytes → h.replaceInStrings p old new = (.ok false, h))
          ∧ (OccursTerminated (utf8 old) bytes → ∃ result h',
            h.replaceInStrings p old new = (.ok true, h')
            ∧ h.write? p (.data result) = some h' ∧ h'.read p = .ok result
            ∧ result.length = bytes.length))) := by
  refine ⟨?_, fun hold => ⟨fun error hr => replaceInStrings_of_unreadable hold hr new,
    fun bytes hr => ⟨fun ha => ?_, fun ho hlen => ?_, fun _ hlen => ⟨fun ht => ?_, fun ht => ?_⟩⟩⟩⟩
  · rintro rfl
    rfl
  · exact replaceInStrings_of_unchanged hold hr (replace_of_absent ha)
  · exact replaceInStrings_of_tooLong hold hr (replace_of_longer ho hlen)
  · have hold' : utf8 old ≠ [] := mt utf8_eq_nil_iff.1 hold
    exact replaceInStrings_of_unchanged hold hr (replace_of_unterminated hold' hlen ht)
  · have hold' : utf8 old ≠ [] := mt utf8_eq_nil_iff.1 hold
    obtain ⟨result, hresult, hb⟩ := replace_of_terminated hold' hlen ht
    obtain ⟨h', hdone, hw, hr'⟩ := replaceInStrings_of_replaced hold hr hb
    exact ⟨result, h', hdone, hw, hr', length_replaceStrings? hold' hlen hresult⟩

/-- A text with a NUL in it that a NUL follows, and one that is too long for its place. -/
theorem replaceInStrings_all_or_nothing_of_library :
    let p : Path := ⟨"/lib/a.so".toList⟩
    let missing : Path := ⟨"/lib/b.so".toList⟩
    let bytes : Bytes := utf8 "/usr\x00/lib".toList ++ 0 :: utf8 "/usr".toList
    let host : Host := ⟨.ofList [(["lib".toList], .directory),
      (["lib".toList, "a.so".toList], .file (.data bytes) true)], .existing [], [], []⟩
    let old := "r\x00/".toList
    (host.read p = .ok bytes ∧ host.read missing = .error .missing
      ∧ OccursTerminated (utf8 old) bytes)
    ∧ host.replaceInStrings missing [] old
      = (.error (.invalidRequest "old prefix must not be empty".toList), host)
    ∧ host.replaceInStrings missing old []
      = (.error (.unreadable missing Files.AccessError.missing.message.toList), host)
    ∧ host.replaceInStrings p old "/opt".toList
      = (.error (.prefixTooLong p old "/opt".toList), host)
    ∧ ∃ result h', host.replaceInStrings p old "R".toList = (.ok true, h')
      ∧ host.write? p (.data result) = some h' ∧ h'.read p = .ok result
      ∧ result.length = bytes.length := by
  intro p missing bytes host old
  have hold : old ≠ [] := by decide
  have hread : host.read p = .ok bytes := by decide +kernel
  have hmissing : host.read missing = .error .missing := by decide +kernel
  have hoccurs : OccursTerminated (utf8 old) bytes := ⟨3, 9, by decide, by decide, by decide⟩
  obtain ⟨hempty, -⟩ := replaceInStrings_all_or_nothing host missing [] old
  obtain ⟨-, hnamed⟩ := replaceInStrings_all_or_nothing host missing old []
  obtain ⟨-, hlong⟩ := replaceInStrings_all_or_nothing host p old "/opt".toList
  obtain ⟨-, hfit⟩ := replaceInStrings_all_or_nothing host p old "R".toList
  exact ⟨⟨hread, hmissing, hoccurs⟩, hempty rfl, (hnamed hold).1 _ hmissing,
    ((hlong hold).2 _ hread).2.1 hoccurs.infix (by decide),
    (((hfit hold).2 _ hread).2.2 hoccurs.infix (by decide)).2 hoccurs⟩

end Host

end Rehome
