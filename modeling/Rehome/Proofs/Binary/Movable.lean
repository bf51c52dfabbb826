import Rehome.Proofs.Binary.Runs
import Rehome.Proofs.Relocation.Checks
import Rehome.Proofs.Tool.Keeping
import Rehome.Workshop

/-!
# Which binaries can be moved as they are

Whether a binary mentions a root is decided on the strings embedded in it. For roots that are
printable and long enough this comes to the same as a search through all of its bytes
(`mentionsRoot_eq_false_iff`): a dynamic binary can be moved as it is exactly if no absolute entry
of its search path lies under a root, and the only printable run in which a root occurs is the
search path itself (`isMovable_iff`).
-/

namespace Rehome

open Binary

theorem Host.IsDynamic.leadsSomewhere [Elf.Decoder] {h : Host} {p : Path} (hd : h.IsDynamic p) :
    h.leadsSomewhere p = true := by
  unfold IsDynamic format readBinary read at hd
  unfold Host.leadsSomewhere
  cases hn : h.node? p with
  | ok node => rfl
  | error error => simp [hn] at hd

theorem Host.checkBinary_eq_ok_iff {h : Host} {p q : Path} :
    h.checkBinary p = .ok q ↔ h.leadsSomewhere p = true ∧ p.isAbsolute = true ∧ q = p := by
  unfold checkBinary
  cases h.leadsSomewhere p with
  | false => simp
  | true =>
    cases p.isAbsolute with
    | false => simp
    | true => simp [eq_comm]

namespace Workshop

variable {σ : Type} {k : Workshop σ} {roots : List Path} {entries : List Text} {own : Text}
  {data : Bytes} {p : Path} {w w' : World σ} {finding : Tool.Finding} {h : Host}

theorem any_liesUnderRoot_eq_false_iff :
    entries.any (liesUnderRoot roots) = false ↔
      ∀ e ∈ entries, (Path.mk e).isAbsolute = true →
        ∀ root ∈ roots, ¬ root.normalize.components <+: (Path.mk e).normalize.components := by
  simp [liesUnderRoot, Path.liesUnder, Path.startsWith]

/-- The strings of some data other than `own` are free of the roots exactly if the run around each
occurrence of a root is `own`. -/
theorem mentionsRoot_eq_false_iff
    (hr : ∀ root ∈ roots, shortestRun ≤ (Text.utf8 root.text).length
      ∧ ∀ b ∈ Text.utf8 root.text, isPrintable b = true) :
    mentionsRoot roots own (strings data) = false ↔
      ∀ root ∈ roots, ∀ before behind, data = before ++ (Text.utf8 root.text ++ behind) →
        runAround before (Text.utf8 root.text) behind = Text.utf8 own := by
  rw [mentionsRoot, List.any_eq_false]
  refine forall₂_congr fun root hmem => ?_
  obtain ⟨hlong, hprintable⟩ := hr root hmem
  rw [← forall_mem_runs_iff (P := (· = Text.utf8 own)) hprintable hlong, Bool.not_eq_true,
    List.any_eq_false, strings]
  simp only [List.mem_filter, List.forall_mem_map, Text.occursIn_iff, decide_eq_true_eq, and_imp]
  refine forall₂_congr fun run hrun => ?_
  have hr := isPrintable_of_mem_runs hrun
  rw [ne_eq, asciiText_eq_iff hr, infix_asciiText_iff hr hprintable, not_imp_not]

theorem isFreeOfRoots_of_strings {strings : List Text} (hs : h.strings p = .ok strings) :
    k.isFreeOfRoots h p entries = .ok (!entries.any (liesUnderRoot k.settings.roots)
      && !mentionsRoot k.settings.roots (Rpath.render entries) strings) := by
  unfold isFreeOfRoots
  rw [hs]
  cases entries.any (liesUnderRoot k.settings.roots) <;> rfl

theorem isFreeOfRoots_of_read (hdata : h.read p = .ok data) :
    k.isFreeOfRoots h p entries = .ok (!entries.any (liesUnderRoot k.settings.roots)
      && !mentionsRoot k.settings.roots (Rpath.render entries) (strings data)) :=
  isFreeOfRoots_of_strings (Host.strings_of_read hdata)

section

variable [Tool.Lookup] [Elf.Decoder]

/-- The verdict on a dynamic binary rests on its entries and strings, and on nothing if there are no
roots. -/
theorem isMovable_eq_of_isDynamic (hd : w.host.IsDynamic p) (ha : p.isAbsolute = true) :
    k.isMovable p w = if k.settings.roots = [] then (.ok true, w) else
      match k.read p w with
      | (.error fault, w) => (.error fault, w)
      | (.ok entries, w) => (k.isFreeOfRoots w.host p entries, w) := by
  have hc : w.host.checkBinary p = .ok p :=
    Host.checkBinary_eq_ok_iff.2 ⟨hd.leadsSomewhere, ha, rfl⟩
  have hd' : w.host.format p = .ok (.elf true) := hd
  simp only [isMovable, hc, hd']
  rfl

/-- What the verdict on a dynamic binary rests on, once the tool is found. -/
theorem isMovable_of_isDynamic (hd : w.host.IsDynamic p) (ha : p.isAbsolute = true)
    (hn : k.settings.roots ≠ []) (hf : k.findTool w = (.ok finding, w'))
    (he : (Editor.patchTool k.launch finding.path).read p w'.host = (entries, h)) :
    k.isMovable p w = (k.isFreeOfRoots h p entries, { w' with host := h }) := by
  have hread : k.read p w = (.ok entries, { w' with host := h }) := by
    simp only [read, withTool, hf, he]
  rw [isMovable_eq_of_isDynamic hd ha, if_neg hn, hread]

/-- A dynamic binary can be moved as it is exactly if no absolute entry of its search path lies
under a root, and wherever a root occurs in its bytes, the printable bytes around are the search
path. The entries are those that the tool reports, and the bytes those that are there afterwards. -/
theorem isMovable_iff (hd : w.host.IsDynamic p) (ha : p.isAbsolute = true)
    (hn : k.settings.roots ≠ [])
    (hr : ∀ root ∈ k.settings.roots, 4 ≤ (Text.utf8 root.text).length
      ∧ ∀ b ∈ Text.utf8 root.text, isPrintable b = true)
    (hf : k.findTool w = (.ok finding, w'))
    (he : (Editor.patchTool k.launch finding.path).read p w'.host = (entries, h))
    (hdata : h.read p = .ok data) :
    ∃ verdict, k.isMovable p w = (.ok verdict, { w' with host := h })
      ∧ (verdict = true ↔
        (∀ e ∈ entries, (Path.mk e).isAbsolute = true → ∀ root ∈ k.settings.roots,
          ¬ root.normalize.components <+: (Path.mk e).normalize.components)
        ∧ ∀ root ∈ k.settings.roots, ∀ before behind,
          data = before ++ (Text.utf8 root.text ++ behind) →
            runAround before (Text.utf8 root.text) behind = Text.utf8 (Rpath.render entries)) := by
  rw [isMovable_of_isDynamic hd ha hn hf he, isFreeOfRoots_of_read hdata]
  refine ⟨_, rfl, ?_⟩
  rw [Bool.and_eq_true, Bool.not_eq_true', Bool.not_eq_true', any_liesUnderRoot_eq_false_iff,
    mentionsRoot_eq_false_iff hr]

end

/-- A root that occurs in the search path of a library, and nowhere else in its bytes: the entry is
below a directory of another name. -/
theorem isMovable_iff_of_own_entry :
    let p : Path := ⟨"/lib/a.so".toList⟩
    let root : Path := ⟨"/store".toList⟩
    let entry := "/opt/store/lib".toList
    let data := Files.Native.bytes ++ 0 :: Text.utf8 entry ++ [0]
    let host : Host := ⟨.ofList [(["lib".toList], .directory),
      (["lib".toList, "a.so".toList], .file (.data data) true),
      (["lib".toList, "a.so.rpath".toList], .file (.data (Text.utf8 entry)) false)],
      .existing [], [], []⟩
    let finding : Tool.Finding := ⟨⟨"/bin/patchelf".toList⟩, .searchPath⟩
    let k : Workshop Unit := ⟨{ roots := [root] }, none, .keeping⟩
    let w : World Unit := ⟨host, { finding? := some finding }, ()⟩
    (w.host.IsDynamic p ∧ p.isAbsolute = true ∧ k.settings.roots ≠ []
      ∧ (∀ root ∈ k.settings.roots, 4 ≤ (Text.utf8 root.text).length
        ∧ ∀ b ∈ Text.utf8 root.text, isPrintable b = true)
      ∧ k.findTool w = (.ok finding, w)
      ∧ (Editor.patchTool k.launch finding.path).read p w.host = ([entry], host)
      ∧ host.read p = .ok data)
    ∧ k.isMovable p w = (.ok true, w)
    ∧ ∀ before behind, data = before ++ (Text.utf8 root.text ++ behind) →
      runAround before (Text.utf8 root.text) behind = Text.utf8 entry := by
  intro p root entry data host finding k w
  have hd : w.host.IsDynamic p := by decide +kernel
  have hr : ∀ root ∈ k.settings.roots, 4 ≤ (Text.utf8 root.text).length
      ∧ ∀ b ∈ Text.utf8 root.text, isPrintable b = true := by decide +kernel
  have he : (Editor.patchTool k.launch finding.path).read p w.host = ([entry], host) :=
    Prod.ext (by decide +kernel) rfl
  have hdata : host.read p = .ok data := by decide +kernel
  have hn : k.settings.roots ≠ [] := List.cons_ne_nil root []
  have hf : k.findTool w = (.ok finding, w) := rfl
  obtain ⟨verdict, hv, hiff⟩ := isMovable_iff hd rfl hn hr hf he hdata
  have htrue : (k.isMovable p w).1 = .ok true := by decide +kernel
  rw [hv] at htrue
  cases htrue
  exact ⟨⟨hd, rfl, hn, hr, hf, he, hdata⟩, hv, (hiff.1 rfl).2 root List.mem_cons_self⟩

end Workshop

end Rehome
