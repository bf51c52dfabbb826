import Mathlib.Data.List.Forall2
import Rehome.Path.NormalForm
import Rehome.Proofs.Binary.Movable

/-!
# How the roots are spelled

Equal paths can be spelled with doubled slashes, with a slash at the end, or with `.` between the
slashes. Entries of a search path are compared with the roots in normal form, where spellings make
no difference (`liesUnderRoot_congr`). The strings of a binary are searched for a root as it is
spelled. So other spellings of the same roots give the same answer just if, whenever it comes to the
strings, one of these mentions a root in both spellings or in none (`isMovable_respelled_iff`).
-/

namespace Rehome

namespace Workshop

variable {σ : Type} {k : Workshop σ} {roots roots' : List Path} {entries strings : List Text}
  {p : Path} {w w' : World σ}

/-- The workshop with other roots. -/
def setRoots (k : Workshop σ) (roots : List Path) : Workshop σ :=
  { k with settings := { k.settings with roots } }

@[simp] theorem setRoots_roots (k : Workshop σ) (roots : List Path) :
    (k.setRoots roots).settings.roots = roots := rfl

/-- Whether two lists of roots are the same paths one by one, however they are spelled. -/
def Respelled (roots roots' : List Path) : Prop :=
  List.Forall₂ (fun root root' => root.components = root'.components) roots roots'

/-- A string other than the search path itself has the text of a root in it. -/
def Mentions (roots : List Path) (own : Text) (strings : List Text) : Prop :=
  ∃ s ∈ strings, s ≠ own ∧ ∃ root ∈ roots, root.text <:+: s

theorem mentionsRoot_eq_true_iff {own : Text} :
    mentionsRoot roots own strings = true ↔ Mentions roots own strings := by
  simp only [mentionsRoot, List.any_eq_true, List.mem_filter, decide_eq_true_eq, Text.occursIn_iff]
  constructor
  · rintro ⟨root, hr, s, ⟨hs, hne⟩, hin⟩
    exact ⟨s, hs, hne, root, hr, hin⟩
  · rintro ⟨s, hs, hne, root, hr, hin⟩
    exact ⟨root, hr, s, ⟨hs, hne⟩, hin⟩

/-- An entry lies under one of the roots or under none, however these are spelled. -/
theorem liesUnderRoot_congr (hr : Respelled roots roots') :
    liesUnderRoot roots' = liesUnderRoot roots := by
  funext entry
  unfold liesUnderRoot
  congr 1
  induction hr with
  | nil => rfl
  | cons h _ ih =>
    rw [List.any_cons, List.any_cons, ih, Path.liesUnder, Path.liesUnder, Path.normalize_congr h]

/-- With the same entries under the roots, it is the strings that can make a difference. -/
theorem isFreeOfRoots_setRoots_iff {h : Host}
    (hl : liesUnderRoot roots' = liesUnderRoot k.settings.roots) :
    (k.setRoots roots').isFreeOfRoots h p entries = k.isFreeOfRoots h p entries
      ↔ (entries.any (liesUnderRoot k.settings.roots) = false →
        ∀ strings, h.strings p = .ok strings →
          (Mentions roots' (Rpath.render entries) strings
            ↔ Mentions k.settings.roots (Rpath.render entries) strings)) := by
  cases ha : entries.any (liesUnderRoot k.settings.roots) with
  | true => simp [isFreeOfRoots, hl, ha]
  | false =>
    cases hs : h.strings p with
    | error error =>
      refine iff_of_true ?_ fun _ _ hs => by cases hs
      simp only [isFreeOfRoots, setRoots_roots, hl, ha, hs]
      rfl
    | ok strings =>
      have hmentions : mentionsRoot roots' (Rpath.render entries) strings
            = mentionsRoot k.settings.roots (Rpath.render entries) strings
          ↔ (Mentions roots' (Rpath.render entries) strings
            ↔ Mentions k.settings.roots (Rpath.render entries) strings) := by
        rw [Bool.eq_iff_iff, mentionsRoot_eq_true_iff, mentionsRoot_eq_true_iff]
      rw [isFreeOfRoots_of_strings hs, isFreeOfRoots_of_strings hs, setRoots_roots, hl, ha]
      simp [hmentions]

/-! ## What the answer rests on -/

section

variable [Tool.Lookup] [Elf.Decoder]

omit [Elf.Decoder] in
@[simp] theorem setRoots_read (k : Workshop σ) (roots : List Path) :
    (k.setRoots roots).read = k.read := rfl

/-- Whether the answer depends on the strings of a binary: it is dynamic, there are roots, the tool
reports `entries` of which none lies under a root, and `strings` are embedded afterwards. -/
structure Scans (k : Workshop σ) (p : Path) (w : World σ) (entries strings : List Text) : Prop where
  isDynamic : w.host.IsDynamic p
  isAbsolute : p.isAbsolute = true
  roots_ne_nil : k.settings.roots ≠ []
  read : ∃ w', k.read p w = (.ok entries, w') ∧ w'.host.strings p = .ok strings
  free : ∀ e ∈ entries, (Path.mk e).isAbsolute = true → ∀ root ∈ k.settings.roots,
    ¬ root.normalize.components <+: (Path.mk e).normalize.components

/-- Unless a path leads to a dynamic binary, the answer is the same for all roots. -/
theorem settled_of_not_isDynamic (h : ¬ (w.host.IsDynamic p ∧ p.isAbsolute = true)) :
    ∃ answer, ∀ roots, (k.setRoots roots).isMovable p w = (answer, w) := by
  cases hc : w.host.checkBinary p with
  | error error => exact ⟨.error (.error error), fun roots => by simp only [isMovable, hc]⟩
  | ok q =>
    obtain ⟨-, ha, rfl⟩ := Host.checkBinary_eq_ok_iff.1 hc
    cases hf : w.host.format q with
    | error fault => exact ⟨.error fault, fun roots => by simp only [isMovable, hc, hf]⟩
    | ok format =>
      cases format with
      | macho =>
        exact ⟨.error (.error (machoRefusal q)), fun roots => by simp only [isMovable, hc, hf]⟩
      | other => exact ⟨.ok false, fun roots => by simp only [isMovable, hc, hf]; rfl⟩
      | elf dynamic =>
        cases dynamic with
        | true => exact absurd ⟨hf, ha⟩ h
        | false => exact ⟨.ok false, fun roots => by simp only [isMovable, hc, hf]; rfl⟩

/-- Once the tool has reported the entries, it comes to the strings unless one lies under a root. -/
theorem scans_iff_of_read {entries' : List Text} (hd : w.host.IsDynamic p)
    (ha : p.isAbsolute = true) (hn : k.settings.roots ≠ [])
    (hread : k.read p w = (.ok entries, w')) :
    k.Scans p w entries' strings ↔ entries' = entries ∧ w'.host.strings p = .ok strings
      ∧ entries.any (liesUnderRoot k.settings.roots) = false := by
  constructor
  · rintro ⟨-, -, -, ⟨_, hread', hstrings⟩, hfree⟩
    rw [hread] at hread'
    cases hread'
    exact ⟨rfl, hstrings, any_liesUnderRoot_eq_false_iff.2 hfree⟩
  · rintro ⟨rfl, hstrings, hfree⟩
    exact ⟨hd, ha, hn, ⟨w', hread, hstrings⟩, any_liesUnderRoot_eq_false_iff.1 hfree⟩

/-- Once the tool has reported the entries, other spellings give the same answer just if the strings
mention a root in both or in none, where it comes to them. -/
theorem isFreeOfRoots_respelled_iff (hr : Respelled k.settings.roots roots')
    (hd : w.host.IsDynamic p) (ha : p.isAbsolute = true) (hn : k.settings.roots ≠ [])
    (hread : k.read p w = (.ok entries, w')) :
    (k.setRoots roots').isFreeOfRoots w'.host p entries = k.isFreeOfRoots w'.host p entries
      ↔ ∀ entries strings, k.Scans p w entries strings →
        (Mentions roots' (Rpath.render entries) strings
          ↔ Mentions k.settings.roots (Rpath.render entries) strings) := by
  refine (isFreeOfRoots_setRoots_iff (liesUnderRoot_congr hr)).trans ⟨?_, ?_⟩
  · intro h entries' strings hs
    obtain ⟨rfl, hstrings, hfree⟩ := (scans_iff_of_read hd ha hn hread).1 hs
    exact h hfree strings hstrings
  · intro h hfree strings hstrings
    exact h entries strings ((scans_iff_of_read hd ha hn hread).2 ⟨rfl, hstrings, hfree⟩)

/-- Other spellings of the same roots leave the same world behind, and give the same answer just if
the strings of a binary, where it comes to them, mention a root in both spellings or in none. -/
theorem isMovable_respelled_iff (hr : Respelled k.settings.roots roots') (p : Path)
    (w : World σ) :
    ((k.setRoots roots').isMovable p w).2 = (k.isMovable p w).2
    ∧ (((k.setRoots roots').isMovable p w).1 = (k.isMovable p w).1
      ↔ ∀ entries strings, k.Scans p w entries strings →
        (Mentions roots' (Rpath.render entries) strings
          ↔ Mentions k.settings.roots (Rpath.render entries) strings)) := by
  by_cases hdyn : w.host.IsDynamic p ∧ p.isAbsolute = true
  · obtain ⟨hd, ha⟩ := hdyn
    have hnil : roots' = [] ↔ k.settings.roots = [] := by
      rw [← List.length_eq_zero_iff, ← List.length_eq_zero_iff, hr.length_eq]
    rw [isMovable_eq_of_isDynamic hd ha, isMovable_eq_of_isDynamic hd ha, setRoots_read,
      setRoots_roots]
    by_cases hn : k.settings.roots = []
    · rw [if_pos hn, if_pos (hnil.2 hn)]
      exact ⟨rfl, iff_of_true rfl fun _ _ hs => absurd hn hs.roots_ne_nil⟩
    · rw [if_neg hn, if_neg (mt hnil.1 hn)]
      match hread : k.read p w with
      | (.error fault, w') =>
        refine ⟨rfl, iff_of_true rfl fun _ _ hs => ?_⟩
        obtain ⟨_, hread', -⟩ := hs.read
        rw [hread] at hread'
        cases hread'
      | (.ok entries, w') => exact ⟨rfl, isFreeOfRoots_respelled_iff hr hd ha hn hread⟩
  · obtain ⟨answer, hanswer⟩ := settled_of_not_isDynamic (k := k) hdyn
    have hown : k.isMovable p w = (answer, w) := hanswer k.settings.roots
    rw [hanswer roots', hown]
    exact ⟨rfl, iff_of_true rfl fun _ _ hs => absurd ⟨hs.isDynamic, hs.isAbsolute⟩ hdyn⟩

end

/-- A library with a path below the root among its strings, and the root with and without a slash at
its end. -/
theorem isMovable_respelled_iff_of_library :
    let p : Path := ⟨"/lib/a.so".toList⟩
    let root : Path := ⟨"/opt/store".toList⟩
    let root' : Path := ⟨"/opt/store/".toList⟩
    let entry := "$ORIGIN/../lib".toList
    let string := "/opt/store/share".toList
    let data := Files.Native.bytes ++ 0 :: Text.utf8 string ++ [0]
    let host : Host := ⟨.ofList [(["lib".toList], .directory),
      (["lib".toList, "a.so".toList], .file (.data data) true),
      (["lib".toList, "a.so.rpath".toList], .file (.data (Text.utf8 entry)) false)],
      .existing [], [], []⟩
    let k : Workshop Unit := ⟨{ roots := [root] }, none, .keeping⟩
    let w : World Unit := ⟨host, { finding? := some ⟨⟨"/bin/patchelf".toList⟩, .searchPath⟩ }, ()⟩
    Respelled k.settings.roots [root'] ∧ k.Scans p w [entry] [string]
    ∧ (k.isMovable p w).1 = .ok false ∧ ((k.setRoots [root']).isMovable p w).1 = .ok false := by
  intro p root root' entry string data host k w
  have hr : Respelled k.settings.roots [root'] := .cons (by decide) .nil
  have hd : w.host.IsDynamic p := by decide +kernel
  have hn : k.settings.roots ≠ [] := List.cons_ne_nil root []
  have hread : k.read p w = (.ok [entry], w) := Prod.ext (by decide +kernel) rfl
  have hstrings : host.strings p = .ok [string] := by decide +kernel
  have hfree : [entry].any (liesUnderRoot k.settings.roots) = false := by decide
  have hscans : ∀ {entries strings}, k.Scans p w entries strings ↔ _ :=
    scans_iff_of_read hd rfl hn hread
  have hanswer : (k.isMovable p w).1 = .ok false := by decide +kernel
  refine ⟨hr, hscans.2 ⟨rfl, hstrings, hfree⟩, hanswer, ?_⟩
  refine ((isMovable_respelled_iff hr p w).2.2 fun entries strings hs => ?_).trans hanswer
  obtain ⟨rfl, hstrings', -⟩ := hscans.1 hs
  cases hstrings.symm.trans hstrings'
  have hne : string ≠ Rpath.render [entry] := by decide
  have hin : root.text <:+: string := Text.occursIn_iff.1 (by decide)
  have hin' : root'.text <:+: string := Text.occursIn_iff.1 (by decide)
  exact iff_of_true
    ⟨string, List.mem_singleton.2 rfl, hne, root', List.mem_singleton.2 rfl, hin'⟩
    ⟨string, List.mem_singleton.2 rfl, hne, root, List.mem_singleton.2 rfl, hin⟩

/-- The same with the root itself among the strings: with a slash at its end it is not found. -/
theorem isMovable_misses_respelled_root :
    let p : Path := ⟨"/lib/a.so".toList⟩
    let root : Path := ⟨"/opt/store".toList⟩
    let root' : Path := ⟨"/opt/store/".toList⟩
    let data := Files.Native.bytes ++ 0 :: Text.utf8 root.text ++ [0]
    let host : Host := ⟨.ofList [(["lib".toList], .directory),
      (["lib".toList, "a.so".toList], .file (.data data) true),
      (["lib".toList, "a.so.rpath".toList],
        .file (.data (Text.utf8 "$ORIGIN/../lib".toList)) false)],
      .existing [], [], []⟩
    let k : Workshop Unit := ⟨{ roots := [root] }, none, .keeping⟩
    let w : World Unit := ⟨host, { finding? := some ⟨⟨"/bin/patchelf".toList⟩, .searchPath⟩ }, ()⟩
    Respelled k.settings.roots [root']
    ∧ (k.isMovable p w).1 = .ok false ∧ ((k.setRoots [root']).isMovable p w).1 = .ok true := by
  intro p root root' data host k w
  exact ⟨.cons (by decide) .nil, by decide +kernel, by decide +kernel⟩

end Workshop

end Rehome
