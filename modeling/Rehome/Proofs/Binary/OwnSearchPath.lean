import Rehome.Proofs.Binary.Movable
import Rehome.Proofs.Rpath.Tidy

/-!
# The search path among the strings of a binary

A binary may mention a root in its own search path. To leave that text out of the strings that are
checked, it is written anew from its entries, so it is recognized only if it is tidy: a text with an
empty entry, or with blanks at an end, counts as any other string. If no other string mentions a
root, that alone decides whether the binary can be moved (`isMovable_own_search_path_iff`).
-/

namespace Rehome

open Binary Rpath

theorem Binary.nil_notMem_strings (data : Bytes) : ([] : Text) ∉ strings data := by
  intro h
  obtain ⟨run, hrun, he⟩ := List.mem_map.1 h
  have hlong : shortestRun ≤ run.length := (mem_runs_iff.1 hrun).1
  rw [List.map_eq_nil_iff.1 he] at hlong
  exact absurd hlong (by decide)

/-- A printable text comes back from the line that prints it. -/
theorem Text.ofUtf8_line {t : Text} {ending : Bytes}
    (ht : ∀ b ∈ Text.utf8 t, isPrintable b = true) (hend : ending = [] ∨ ending = [10]) :
    Text.ofUtf8 (Text.utf8 t ++ ending) = t ++ asciiText ending := by
  have hascii : ∀ b ∈ Text.utf8 t, b < 0x80 := fun b hb => lt_of_isPrintable (ht b hb)
  have hline : ∀ b ∈ Text.utf8 t ++ ending, b < 0x80 := by
    refine List.forall_mem_append.2 ⟨hascii, ?_⟩
    obtain rfl | rfl := hend
    · exact List.forall_mem_nil _
    · exact List.forall_mem_singleton.2 (by decide)
  rw [ofUtf8_of_lt hline, asciiText_append, asciiText_utf8 hascii]

/-- A tool that prints a text, on a line of its own or alone, reports the entries of that text. -/
theorem Editor.read_patchTool_of_printed {launch : Launcher} {tool p : Path} {h h' : Host}
    {output : Output} {t : Text} {ending : Bytes}
    (hcall : launch.call tool (.print p.text) h = (some output, h'))
    (hs : output.success = true) (hout : output.out = Text.utf8 t ++ ending)
    (ht : ∀ b ∈ Text.utf8 t, isPrintable b = true) (hend : ending = [] ∨ ending = [10]) :
    (patchTool launch tool).read p h = (Rpath.parse t, h') := by
  have hblank : ∀ c ∈ asciiText ending, isBlank c = true := by
    obtain rfl | rfl := hend
    · exact List.forall_mem_nil _
    · exact List.forall_mem_singleton.2 (by decide)
  rw [read_patchTool, hcall, printedEntries, if_pos hs, hout, Text.ofUtf8_line ht hend,
    parse_append_of_blank hblank]

namespace Workshop

variable {σ : Type} {k : Workshop σ} {roots : List Path} {own t : Text} {strings : List Text}
  {data ending : Bytes} {p : Path} {w w' : World σ} {finding : Tool.Finding} {h : Host}
  {output : Output}

/-- If no other string than `t` mentions a root, then none at all is found just if `t` is not among
them, does not mention a root either, or is what is left out. -/
theorem mentionsRoot_eq_false_iff_of_only
    (ht : ∀ s ∈ strings, ∀ root ∈ roots, root.text <:+: s → s = t) :
    mentionsRoot roots own strings = false
      ↔ t ∉ strings ∨ (∀ root ∈ roots, ¬ root.text <:+: t) ∨ own = t := by
  have hiff : mentionsRoot roots own strings = false
      ↔ ∀ root ∈ roots, ∀ s ∈ strings, s ≠ own → ¬ root.text <:+: s := by
    simp only [mentionsRoot, List.any_eq_false, List.mem_filter, Bool.not_eq_true,
      decide_eq_true_eq, and_imp, ← Text.occursIn_iff]
  rw [hiff]
  constructor
  · intro hnone
    by_cases hmem : t ∈ strings
    · by_cases ho : own = t
      · exact .inr (.inr ho)
      · exact .inr (.inl fun root hr => hnone root hr t hmem fun e => ho e.symm)
    · exact .inl hmem
  · intro hcases root hr s hs hne hin
    obtain rfl := ht s hs root hr hin
    obtain hmem | hfree | rfl := hcases
    · exact hmem hs
    · exact hfree root hr hin
    · exact hne rfl

section

variable [Tool.Lookup] [Elf.Decoder]

/-- What a tool prints for a dynamic binary is left out of its strings just if it is tidy. So if no
absolute entry lies under a root, and only that text mentions one, the binary can be moved as it is
exactly if the text is tidy, unless it is not embedded or does not mention a root either. -/
theorem isMovable_own_search_path_iff (hd : w.host.IsDynamic p) (ha : p.isAbsolute = true)
    (hn : k.settings.roots ≠ []) (hf : k.findTool w = (.ok finding, w'))
    (hcall : k.launch.call finding.path (.print p.text) w'.host = (some output, h))
    (hs : output.success = true) (hout : output.out = Text.utf8 t ++ ending)
    (hend : ending = [] ∨ ending = [10]) (ht : ∀ b ∈ Text.utf8 t, isPrintable b = true)
    (hdata : h.read p = .ok data)
    (hentries : ∀ e ∈ Rpath.parse t, (Path.mk e).isAbsolute = true → ∀ root ∈ k.settings.roots,
      ¬ root.normalize.components <+: (Path.mk e).normalize.components)
    (honly : ∀ s ∈ Binary.strings data, ∀ root ∈ k.settings.roots, root.text <:+: s → s = t) :
    ∃ verdict, k.isMovable p w = (.ok verdict, { w' with host := h })
      ∧ (verdict = true ↔ IsTidy t ∨ t ∉ Binary.strings data
        ∨ ∀ root ∈ k.settings.roots, ¬ root.text <:+: t) := by
  have hread := Editor.read_patchTool_of_printed hcall hs hout ht hend
  rw [isMovable_of_isDynamic hd ha hn hf hread, isFreeOfRoots_of_read hdata]
  refine ⟨_, rfl, ?_⟩
  rw [Bool.and_eq_true, Bool.not_eq_true', Bool.not_eq_true',
    and_iff_right (any_liesUnderRoot_eq_false_iff.2 hentries),
    mentionsRoot_eq_false_iff_of_only honly]
  by_cases hne : t = []
  · subst hne
    simp only [Binary.nil_notMem_strings, not_false_eq_true, true_or, or_true]
  · rw [render_parse_eq_iff hne]
    constructor
    · rintro (hmem | hfree | htidy)
      · exact .inr (.inl hmem)
      · exact .inr (.inr hfree)
      · exact .inl htidy
    · rintro (htidy | hmem | hfree)
      · exact .inr (.inr htidy)
      · exact .inl hmem
      · exact .inr (.inl hfree)

end

/-- A library below a directory whose name goes on behind that of the root. -/
theorem isMovable_own_search_path_iff_of_library :
    let p : Path := ⟨"/lib/a.so".toList⟩
    let root : Path := ⟨"/opt/store".toList⟩
    let t := "/opt/storehouse/lib:/usr/lib".toList
    let data := Files.Native.bytes ++ 0 :: Text.utf8 t ++ [0]
    let host : Host := ⟨.ofList [(["lib".toList], .directory),
      (["lib".toList, "a.so".toList], .file (.data data) true),
      (["lib".toList, "a.so.rpath".toList], .file (.data (Text.utf8 t ++ [10])) false)],
      .existing [], [], []⟩
    let finding : Tool.Finding := ⟨⟨"/bin/patchelf".toList⟩, .searchPath⟩
    let k : Workshop Unit := ⟨{ roots := [root] }, none, .keeping⟩
    let w : World Unit := ⟨host, { finding? := some finding }, ()⟩
    (w.host.IsDynamic p ∧ p.isAbsolute = true ∧ k.settings.roots ≠ []
      ∧ k.findTool w = (.ok finding, w)
      ∧ k.launch.call finding.path (.print p.text) w.host
        = (some ⟨Text.utf8 t ++ [10], [], true⟩, host)
      ∧ (∀ b ∈ Text.utf8 t, isPrintable b = true) ∧ host.read p = .ok data
      ∧ (∀ e ∈ Rpath.parse t, (Path.mk e).isAbsolute = true → ∀ root ∈ k.settings.roots,
        ¬ root.normalize.components <+: (Path.mk e).normalize.components)
      ∧ ∀ s ∈ Binary.strings data, ∀ root ∈ k.settings.roots, root.text <:+: s → s = t)
    ∧ IsTidy t ∧ t ∈ Binary.strings data ∧ root.text <:+: t ∧ k.isMovable p w = (.ok true, w) := by
  intro p root t data host finding k w
  have hd : w.host.IsDynamic p := by decide +kernel
  have hn : k.settings.roots ≠ [] := List.cons_ne_nil root []
  have hf : k.findTool w = (.ok finding, w) := rfl
  have hcall : k.launch.call finding.path (.print p.text) w.host
      = (some ⟨Text.utf8 t ++ [10], [], true⟩, host) := Prod.ext (by decide +kernel) rfl
  have ht : ∀ b ∈ Text.utf8 t, isPrintable b = true := by decide +kernel
  have hdata : host.read p = .ok data := by decide +kernel
  have hentries : ∀ e ∈ Rpath.parse t, (Path.mk e).isAbsolute = true →
      ∀ root ∈ k.settings.roots,
        ¬ root.normalize.components <+: (Path.mk e).normalize.components := by decide +kernel
  have hstrings : Binary.strings data = [t] := by decide +kernel
  have honly : ∀ s ∈ Binary.strings data, ∀ root ∈ k.settings.roots, root.text <:+: s → s = t := by
    rw [hstrings]
    exact fun s hs _ _ _ => List.mem_singleton.1 hs
  have htidy : IsTidy t := by decide
  obtain ⟨verdict, hv, hiff⟩ := isMovable_own_search_path_iff hd rfl hn hf hcall rfl rfl (.inr rfl)
    ht hdata hentries honly
  rw [hiff.2 (.inl htidy)] at hv
  have hmem : t ∈ Binary.strings data := hstrings ▸ List.mem_singleton.2 rfl
  exact ⟨⟨hd, rfl, hn, hf, hcall, ht, hdata, hentries, honly⟩, htidy, hmem,
    Text.occursIn_iff.1 (by decide), hv⟩

/-- The same library with an empty entry in its search path, which keeps it from being moved. -/
theorem isMovable_rejects_empty_entry :
    let p : Path := ⟨"/lib/a.so".toList⟩
    let root : Path := ⟨"/opt/store".toList⟩
    let t := "/opt/storehouse/lib::/usr/lib".toList
    let data := Files.Native.bytes ++ 0 :: Text.utf8 t ++ [0]
    let host : Host := ⟨.ofList [(["lib".toList], .directory),
      (["lib".toList, "a.so".toList], .file (.data data) true),
      (["lib".toList, "a.so.rpath".toList], .file (.data (Text.utf8 t ++ [10])) false)],
      .existing [], [], []⟩
    let finding : Tool.Finding := ⟨⟨"/bin/patchelf".toList⟩, .searchPath⟩
    let k : Workshop Unit := ⟨{ roots := [root] }, none, .keeping⟩
    let w : World Unit := ⟨host, { finding? := some finding }, ()⟩
    (w.host.IsDynamic p ∧ p.isAbsolute = true ∧ root.text ≠ []
      ∧ (k.findTool w).1 = .ok finding
      ∧ (k.launch.call finding.path (.print p.text) w.host).1
        = some ⟨Text.utf8 t ++ [10], [], true⟩
      ∧ (∀ b ∈ Text.utf8 t, isPrintable b = true) ∧ host.read p = .ok data
      ∧ (∀ e ∈ Rpath.parse t, (Path.mk e).isAbsolute = true → ∀ root ∈ k.settings.roots,
        ¬ root.normalize.components <+: (Path.mk e).normalize.components)
      ∧ Binary.strings data = [t])
    ∧ (k.isMovable p w).1 = .ok false := by
  decide +kernel

end Workshop

end Rehome
