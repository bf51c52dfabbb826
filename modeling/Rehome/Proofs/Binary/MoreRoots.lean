import Rehome.Proofs.Binary.RootSpelling

/-!
# More roots

A binary can be moved as it is with some roots just if it can be moved with each of them alone, and
with no roots at all (`isMovable_eq_ok_true_iff`). So the order of the roots and their repetitions
make no difference, and roots that are added can only forbid a move (`isMovable_antitone`).
-/

namespace Rehome.Workshop

variable {σ : Type} {k : Workshop σ} {roots roots' : List Path} {entries strings : List Text}
  {own : Text} {h : Host} {p : Path} {w : World σ}

/-! ## Roots one by one -/

theorem any_liesUnderRoot_eq_false_iff_forall :
    entries.any (liesUnderRoot roots) = false
      ↔ ∀ root ∈ roots, entries.any (liesUnderRoot [root]) = false := by
  simp only [any_liesUnderRoot_eq_false_iff, List.forall_mem_singleton]
  exact ⟨fun hfree root hr e he ha => hfree e he ha root hr,
    fun hfree e he ha root hr => hfree root hr e he ha⟩

theorem mentionsRoot_eq_false_iff_forall :
    mentionsRoot roots own strings = false
      ↔ ∀ root ∈ roots, mentionsRoot [root] own strings = false := by
  simp only [mentionsRoot, List.any_eq_false, List.forall_mem_singleton]

theorem isFreeOfRoots_eq_ok_true_iff :
    k.isFreeOfRoots h p entries = .ok true
      ↔ entries.any (liesUnderRoot k.settings.roots) = false
        ∧ ∃ strings, h.strings p = .ok strings
          ∧ mentionsRoot k.settings.roots (Rpath.render entries) strings = false := by
  cases hs : h.strings p with
  | ok strings => simp [isFreeOfRoots_of_strings hs]
  | error error =>
    unfold isFreeOfRoots
    cases entries.any (liesUnderRoot k.settings.roots) <;> simp [hs, Except.map, reported]

/-- A binary is free of some roots just if it is free of each of them. -/
theorem isFreeOfRoots_setRoots_eq_ok_true_iff (hn : roots ≠ []) :
    (k.setRoots roots).isFreeOfRoots h p entries = .ok true
      ↔ ∀ root ∈ roots, (k.setRoots [root]).isFreeOfRoots h p entries = .ok true := by
  obtain ⟨first, hfirst⟩ := List.exists_mem_of_ne_nil roots hn
  simp only [isFreeOfRoots_eq_ok_true_iff, setRoots_roots]
  rw [any_liesUnderRoot_eq_false_iff_forall]
  constructor
  · rintro ⟨hfree, strings, hs, hm⟩ root hr
    exact ⟨hfree root hr, strings, hs, mentionsRoot_eq_false_iff_forall.1 hm root hr⟩
  · intro hfree
    obtain ⟨-, strings, hs, -⟩ := hfree first hfirst
    refine ⟨fun root hr => (hfree root hr).1, strings, hs,
      mentionsRoot_eq_false_iff_forall.2 fun root hr => ?_⟩
    obtain ⟨-, strings', hs', hm⟩ := hfree root hr
    cases hs.symm.trans hs'
    exact hm

section

variable [Tool.Lookup] [Elf.Decoder]

/-- The verdict on a dynamic binary, given that there are roots. -/
theorem isMovable_setRoots_of_isDynamic (hd : w.host.IsDynamic p) (ha : p.isAbsolute = true)
    (hn : roots ≠ []) : (k.setRoots roots).isMovable p w =
      match k.read p w with
      | (.error fault, w) => (.error fault, w)
      | (.ok entries, w) => ((k.setRoots roots).isFreeOfRoots w.host p entries, w) :=
  (isMovable_eq_of_isDynamic hd ha).trans (if_neg hn)

/-- With some roots a binary can be moved as it is just if it can without any, and with each of them
alone. -/
theorem isMovable_eq_ok_true_iff :
    ((k.setRoots roots).isMovable p w).1 = .ok true
      ↔ ((k.setRoots []).isMovable p w).1 = .ok true
        ∧ ∀ root ∈ roots, ((k.setRoots [root]).isMovable p w).1 = .ok true := by
  by_cases hdyn : w.host.IsDynamic p ∧ p.isAbsolute = true
  · obtain ⟨hd, ha⟩ := hdyn
    have hnone : ((k.setRoots []).isMovable p w).1 = .ok true := by
      rw [isMovable_eq_of_isDynamic hd ha, if_pos (setRoots_roots k [])]
    rw [and_iff_right hnone]
    by_cases hn : roots = []
    · subst hn
      exact iff_of_true hnone nofun
    · obtain ⟨first, hfirst⟩ := List.exists_mem_of_ne_nil roots hn
      simp only [isMovable_setRoots_of_isDynamic hd ha hn,
        isMovable_setRoots_of_isDynamic hd ha (List.cons_ne_nil _ [])]
      match k.read p w with
      | (.error fault, w') => exact ⟨nofun, fun hfree => hfree first hfirst⟩
      | (.ok entries, w') => exact isFreeOfRoots_setRoots_eq_ok_true_iff hn
  · obtain ⟨answer, hanswer⟩ := settled_of_not_isDynamic (k := k) hdyn
    simp only [hanswer]
    exact (and_iff_left_of_imp fun h _ _ => h).symm

/-! ## Lists of roots -/

/-- The order of the roots and their repetitions make no difference, to the answer and to the world
that is left behind. -/
theorem isMovable_congr_mem (hr : ∀ root, root ∈ roots ↔ root ∈ roots') :
    (k.setRoots roots).isMovable p w = (k.setRoots roots').isMovable p w := by
  by_cases hdyn : w.host.IsDynamic p ∧ p.isAbsolute = true
  · obtain ⟨hd, ha⟩ := hdyn
    by_cases hn : roots = []
    · have hn' : roots' = [] := List.eq_nil_iff_forall_not_mem.2 fun root hmem =>
        List.not_mem_nil (hn ▸ (hr root).2 hmem)
      rw [hn, hn']
    · obtain ⟨first, hfirst⟩ := List.exists_mem_of_ne_nil roots hn
      have hn' : roots' ≠ [] := List.ne_nil_of_mem ((hr first).1 hfirst)
      have hunder : liesUnderRoot roots' = liesUnderRoot roots := by
        funext entry
        rw [Bool.eq_iff_iff]
        simp only [liesUnderRoot, Bool.and_eq_true, List.any_eq_true, hr]
      have hfree : ∀ h entries, (k.setRoots roots').isFreeOfRoots h p entries
          = (k.setRoots roots).isFreeOfRoots h p entries := fun h entries =>
        (isFreeOfRoots_setRoots_iff (k := k.setRoots roots) hunder).2 fun _ strings _ => by
          simp only [Mentions, setRoots_roots, hr]
      simp only [isMovable_setRoots_of_isDynamic hd ha hn,
        isMovable_setRoots_of_isDynamic hd ha hn', hfree]
  · obtain ⟨answer, hanswer⟩ := settled_of_not_isDynamic (k := k) hdyn
    rw [hanswer, hanswer]

/-- Roots can only forbid: what can be moved as it is with some roots can be moved with fewer of
them, or none. And lists of the same roots, in any order and with any repetitions, give the same
answer, be it an error, and leave the same world behind. -/
theorem isMovable_antitone (k : Workshop σ) (p : Path) (w : World σ) (roots roots' : List Path) :
    (roots ⊆ roots' → ((k.setRoots roots').isMovable p w).1 = .ok true →
      ((k.setRoots roots).isMovable p w).1 = .ok true)
    ∧ ((∀ root, root ∈ roots ↔ root ∈ roots') →
      (k.setRoots roots).isMovable p w = (k.setRoots roots').isMovable p w) := by
  refine ⟨fun hsub h => ?_, isMovable_congr_mem⟩
  obtain ⟨hnone, heach⟩ := isMovable_eq_ok_true_iff.1 h
  exact isMovable_eq_ok_true_iff.2 ⟨hnone, fun root hr => heach root (hsub hr)⟩

end

/-- A library with a path below a root among its strings: it can be moved with two other roots, so
it can with one of them and with both in another order, though not with all three. -/
theorem isMovable_antitone_of_library :
    let p : Path := ⟨"/lib/a.so".toList⟩
    let store : Path := ⟨"/opt/store".toList⟩
    let build : Path := ⟨"/tmp/build".toList⟩
    let other : Path := ⟨"/opt/share".toList⟩
    let data := Files.Native.bytes ++ 0 :: Text.utf8 "/opt/share/doc".toList ++ [0]
    let host : Host := ⟨.ofList [(["lib".toList], .directory),
      (["lib".toList, "a.so".toList], .file (.data data) true),
      (["lib".toList, "a.so.rpath".toList],
        .file (.data (Text.utf8 "$ORIGIN/../lib".toList)) false)],
      .existing [], [], []⟩
    let k : Workshop Unit := ⟨{}, none, .keeping⟩
    let w : World Unit := ⟨host, { finding? := some ⟨⟨"/bin/patchelf".toList⟩, .searchPath⟩ }, ()⟩
    ([build] ⊆ [store, build] ∧ ((k.setRoots [store, build]).isMovable p w).1 = .ok true
      ∧ ∀ root, root ∈ [store, build] ↔ root ∈ [build, store, build])
    ∧ ((k.setRoots [build]).isMovable p w).1 = .ok true
    ∧ (k.setRoots [store, build]).isMovable p w = (k.setRoots [build, store, build]).isMovable p w
    ∧ ((k.setRoots [store, build, other]).isMovable p w).1 = .ok false := by
  intro p store build other data host k w
  have hsub : [build] ⊆ [store, build] := by decide
  have hmovable : ((k.setRoots [store, build]).isMovable p w).1 = .ok true := by decide +kernel
  have hsame : ∀ root, root ∈ [store, build] ↔ root ∈ [build, store, build] := fun root =>
    ⟨List.mem_cons_of_mem build, fun h => (List.mem_cons.1 h).elim
      (fun e => hsub (e ▸ List.mem_singleton.2 rfl)) id⟩
  exact ⟨⟨hsub, hmovable, hsame⟩, (isMovable_antitone k p w _ _).1 hsub hmovable,
    (isMovable_antitone k p w _ _).2 hsame, by decide +kernel⟩

end Rehome.Workshop
