import Rehome.Proofs.Path.Absolute
import Rehome.Proofs.Tool.Recording

/-!
# Findings that are known from the root

A finding is no more absolute than what it was made of. A tool name of several components gives an
absolute path (`isAbsolute_namedFile`), a directory of the search path gives one if it is absolute
itself or begins with an absolute home directory (`isAbsolute_expandHome_iff`), and the answer of an
installer is taken as it is (`Finder.isAbsolute_find_iff`).
-/

namespace Rehome.Tool

open Component Rehome.Path

/-- Whether a directory of a search path is known from the root, after a first component `~` has
been replaced by the home directory. -/
def IsRooted (home : Text) (dir : Path) : Prop :=
  dir.isAbsolute = true
    ∨ dir.components.head? = some (.name ['~']) ∧ (Path.mk home).isAbsolute = true

/-- The first directory of a search path in which a name stands for a file that may be executed. -/
def firstDirectory? (h : Host) (name searchPath : Text) : Option Text :=
  (searchPath.splitOn ':').find? fun dir => h.isExecutable ((expandHome h.home ⟨dir⟩).join ⟨name⟩)

/-- Going on by steps from a path does not make it absolute, or relative. -/
theorem isAbsolute_foldl_join {cs : List Component} (hs : ∀ c ∈ cs, c.IsStep) (p : Path) :
    (cs.foldl (fun p c => p.join ⟨c.text⟩) p).isAbsolute = p.isAbsolute := by
  induction cs generalizing p with
  | nil => rfl
  | cons c cs ih =>
    obtain ⟨hc, hcs⟩ := List.forall_mem_cons.1 hs
    have hstep : (Path.mk c.text).isAbsolute = false :=
      Bool.eq_false_iff.2 fun h =>
        slash_not_mem_text hc (List.mem_of_head? (of_decide_eq_true h))
    rw [List.foldl_cons, ih hcs, isAbsolute_join, hstep, Bool.or_false]

/-- A name of several components, seen from a directory, gives an absolute path. -/
theorem isAbsolute_namedFile (dir : Location) (name : Path) :
    (namedFile dir name).isAbsolute = true := by
  unfold namedFile
  split
  · assumption
  · rename_i hn
    rw [isAbsolute_foldl_join, Location.isAbsolute_toPath]
    intro c hc
    obtain ⟨hc, hne⟩ := List.mem_filter.1 hc
    obtain ⟨-, ha⟩ | rfl | hs := mem_components_cases hc
    · exact absurd ha hn
    · exact absurd rfl (of_decide_eq_true hne)
    · exact isStep_of_mem_steps hs

theorem isAbsolute_expandHome_iff {home : Text} {dir : Path} :
    (expandHome home dir).isAbsolute = true ↔ IsRooted home dir := by
  unfold expandHome IsRooted
  split
  · rename_i rest hdir
    have ha : dir.isAbsolute = false := Bool.eq_false_iff.2 fun ha => by
      rw [components_of_isAbsolute ha] at hdir
      cases hdir
    have hs : ∀ c ∈ rest, c.IsStep := by
      intro c hc
      have htail : c ∈ dir.components.tail := hdir ▸ hc
      exact isStep_of_mem_steps (mem_steps_of_mem_tail htail)
    rw [isAbsolute_foldl_join hs, ha, hdir]
    simp
  · rename_i hdir
    refine ⟨.inl, ?_⟩
    rintro (ha | ⟨hfirst, -⟩)
    · exact ha
    · obtain ⟨rest, hrest⟩ := List.head?_eq_some_iff.1 hfirst
      exact absurd hrest (hdir rest)

/-! ## What is found on a search path -/

section

variable [Lookup] [LawfulLookup] {h : Host} {name : Text} {searchPath? : Option Text} {path : Path}

/-- What is found is the one file that a name of several components stands for, or lies in the first
directory of the search path that has it. -/
theorem find?_cases (hf : Lookup.find? h name searchPath? = some path) :
    (1 < (Path.mk name).components.length
      ∧ ∃ dir, vantage? h.cwd searchPath? = some dir ∧ path = namedFile dir ⟨name⟩)
    ∨ ¬ (1 < (Path.mk name).components.length ∧ (vantage? h.cwd searchPath?).isSome)
      ∧ ∃ dir, firstDirectory? h name (searchPath?.getD h.searchPath) = some dir
        ∧ path = (expandHome h.home ⟨dir⟩).join ⟨name⟩ := by
  have hlisted (hl : (listedFiles h.home (searchPath?.getD h.searchPath) name).find? h.isExecutable
      = some path) : ∃ dir, firstDirectory? h name (searchPath?.getD h.searchPath) = some dir
        ∧ path = (expandHome h.home ⟨dir⟩).join ⟨name⟩ := by
    rw [listedFiles, List.find?_map] at hl
    obtain ⟨dir, hdir, hpath⟩ := Option.map_eq_some_iff.1 hl
    exact ⟨dir, hdir, hpath.symm⟩
  rw [LawfulLookup.find?_eq, candidates] at hf
  split at hf
  · rename_i hlong
    split at hf
    · rename_i dir hv
      exact .inl ⟨hlong, dir, hv, List.mem_singleton.1 (List.mem_of_find?_eq_some hf)⟩
    · rename_i hv
      exact .inr ⟨by simp [hv], hlisted hf⟩
  · rename_i hshort
    exact .inr ⟨fun h => hshort h.1, hlisted hf⟩

theorem isAbsolute_of_find?_iff (hf : Lookup.find? h name searchPath? = some path) :
    path.isAbsolute = true ↔
      (Path.mk name).isAbsolute = true
      ∨ (1 < (Path.mk name).components.length ∧ (vantage? h.cwd searchPath?).isSome)
      ∨ ∃ dir, firstDirectory? h name (searchPath?.getD h.searchPath) = some dir
        ∧ IsRooted h.home ⟨dir⟩ := by
  obtain ⟨hlong, dir, hv, rfl⟩ | ⟨hlisted, dir, hdir, rfl⟩ := find?_cases hf
  · exact iff_of_true (isAbsolute_namedFile dir ⟨name⟩) (.inr (.inl ⟨hlong, by rw [hv]; rfl⟩))
  · rw [isAbsolute_join, Bool.or_eq_true, isAbsolute_expandHome_iff]
    constructor
    · rintro (hrooted | hname)
      · exact .inr (.inr ⟨dir, hdir, hrooted⟩)
      · exact .inl hname
    · rintro (hname | hvantage | ⟨dir', hdir', hrooted⟩)
      · exact .inr hname
      · exact absurd hvantage hlisted
      · cases hdir.symm.trans hdir'
        exact .inl hrooted

end

/-! ## What a finder finds -/

namespace Finder

variable {σ : Type} {f : Finder σ} {w : World σ} {finding : Finding}

/-- Whether what a finding of some source was made of is known from the root: the tool name or the
first directory of the search path that has the tool, or what the installer has answered. -/
def KnowsRoot (f : Finder σ) (w : World σ) : Source → Prop
  | .searchPath =>
    (Path.mk f.toolName).isAbsolute = true
    ∨ (1 < (Path.mk f.toolName).components.length
      ∧ (vantage? w.host.cwd f.searchPath?).isSome)
    ∨ ∃ dir, firstDirectory? w.host f.toolName (f.searchPath?.getD w.host.searchPath) = some dir
      ∧ IsRooted w.host.home ⟨dir⟩
  | .installed => ∃ installer path s, f.installer? = some installer
    ∧ installer.availability f.toolName (w.host, w.supply) = (.installed path, s)
    ∧ path.isAbsolute = true
  | .freshlyInstalled => ∃ installer path s s', f.installer? = some installer
    ∧ installer.Lacks f.toolName (w.host, w.supply) s
    ∧ installer.install f.toolName s = (.built path, s') ∧ path.isAbsolute = true

section

variable [Lookup] [LawfulLookup]

/-- Finders with an empty cache do not make a path absolute: what they find is absolute just if what
it was made of is known from the root. -/
theorem isAbsolute_find_iff (hc : w.cache.finding? = none) (hf : (f.find w).1 = .ok finding) :
    finding.path.isAbsolute = true ↔ f.KnowsRoot w finding.source := by
  obtain ⟨result, s', hs⟩ := exists_search f (w.host, w.supply)
  rw [find_of_search hc hs] at hf
  obtain rfl : result = .ok finding := hf
  cases hs with
  | onSearchPath hp => exact isAbsolute_of_find?_iff hp
  | installed hp hi ha hl =>
    constructor
    · intro habs
      exact ⟨_, _, _, hi, ha, habs⟩
    · rintro ⟨installer, path, s, hi', ha', habs⟩
      cases hi.symm.trans hi'
      cases ha.symm.trans ha'
      exact habs
  | built hp hi ha hb hl =>
    constructor
    · intro habs
      exact ⟨_, _, _, _, hi, ha, hb, habs⟩
    · rintro ⟨installer, path, s, s', hi', ⟨answer', ha', -, -⟩, hb', habs⟩
      obtain ⟨answer, ha, -, -⟩ := ha
      cases hi.symm.trans hi'
      cases ha.symm.trans ha'
      cases hb.symm.trans hb'
      exact habs

end

/-- A search path with a directory below the home directory, and a relative one behind it. -/
theorem isAbsolute_find_iff_of_home :
    let tool : Files.Node := .file (.data []) true
    let files : Files.Tree := .ofList [(["me".toList], .directory),
      (["me".toList, "bin".toList], .directory),
      (["me".toList, "bin".toList, "patchelf".toList], tool)]
    let host : Host := ⟨files, .existing ["me".toList], "/sbin:~/bin:bin".toList, "/me".toList⟩
    let f : Finder Unit := .ofSettings {} none
    let w : World Unit := ⟨host, {}, ()⟩
    let finding : Finding := ⟨⟨"/me/bin/patchelf".toList⟩, .searchPath⟩
    w.cache.finding? = none ∧ (f.find w).1 = .ok finding
    ∧ finding.path.isAbsolute = true ∧ f.KnowsRoot w finding.source := by
  intro tool files host f w finding
  have hc : w.cache.finding? = none := rfl
  have hf : (f.find w).1 = .ok finding := by decide +kernel
  have ha : finding.path.isAbsolute = true := rfl
  exact ⟨hc, hf, ha, (isAbsolute_find_iff hc hf).1 ha⟩

/-- With the relative directory alone, the same tool is found at a relative path. -/
theorem find_gives_relative_path :
    let tool : Files.Node := .file (.data []) true
    let files : Files.Tree := .ofList [(["me".toList], .directory),
      (["me".toList, "bin".toList], .directory),
      (["me".toList, "bin".toList, "patchelf".toList], tool)]
    let host : Host := ⟨files, .existing ["me".toList], [], "/me".toList⟩
    let f : Finder Unit := .ofSettings { searchPath? := some "bin".toList } none
    let w : World Unit := ⟨host, {}, ()⟩
    let finding : Finding := ⟨⟨"bin/patchelf".toList⟩, .searchPath⟩
    w.cache.finding? = none ∧ (f.find w).1 = .ok finding ∧ finding.path.isAbsolute = false := by
  intro tool files host f w finding
  exact ⟨rfl, by decide +kernel, rfl⟩

end Finder

end Rehome.Tool
