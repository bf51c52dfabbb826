import Rehome.Proofs.Relocation.Outcome
import Rehome.Proofs.Tool.Keeping

/-!
# A search path that cannot be read

A search path that the tool fails to print counts as empty, and relocating nothing gives nothing:
the tool is told to set the empty search path, and the batch goes on (`relocate_after_failed_read`).
So the search path is lost if that call succeeds (`emptied_by_failed_read`), and kept if it fails.
-/

namespace Rehome

section

variable [Path.Router Char]

namespace Batch

open Editor

variable {b : Batch} {launch : Launcher} {tool : Path} {t : Target} {h h' : Host}

/-- The patch tool is called to print and then to set, or not at all. -/
theorem host_of_turn {fate : Fate} (ht : Turn b (.patchTool launch tool) t h fate h') :
    h' = h ∨ ∃ entries, h' = (launch.call tool (.set entries t.path.text)
      (launch.call tool (.print t.path.text) h).2).2 := by
  cases ht with
  | skipped => exact .inl rfl
  | updated _ hr _ hw | failed _ hr _ hw =>
    rw [read_patchTool] at hr
    cases hr
    exact .inr ⟨_, (congrArg Prod.snd hw).symm⟩

theorem relocated_nil (hl : b.lacksRoot = false) (p : Path) : b.relocated p [] = .ok [] := by
  have hn : b.substitution.replaceAll [] = [] := rfl
  cases hs : b.style with
  | absolute => rw [relocated, hs, hn]
  | relative =>
    cases hr : b.move.newRoot? with
    | none => simp [lacksRoot, hs, hr] at hl
    | some root =>
      have he : Rpath.expand (b.move.undo p) [] = [] := rfl
      rw [relocated_of_relative hs hr, he, hn, Rpath.anchor]
      split <;> rfl

/-- A binary whose search path cannot be read is given the empty one. -/
theorem turn_of_failed_read (hl : b.lacksRoot = false) (hd : t.dynamic = true)
    (hr : succeeded (launch.call tool (.print t.path.text) h).1 = false) :
    let emptied := launch.call tool (.set [] t.path.text)
      (launch.call tool (.print t.path.text) h).2
    Turn b (.patchTool launch tool) t h (if succeeded emptied.1 then .updated else .failed)
      emptied.2 := by
  intro emptied
  have hread := read_patchTool launch tool t.path h
  rw [printedEntries_of_not_succeeded hr] at hread
  have hwrite := write_patchTool launch tool t.path [] (launch.call tool (.print t.path.text) h).2
  cases hs : succeeded emptied.1 with
  | false =>
    rw [if_neg Bool.false_ne_true]
    exact .failed hd hread (relocated_nil hl t.path)
      (hwrite.trans (Prod.ext (outputText?_eq_none_iff.2 hs) rfl))
  | true =>
    rw [if_pos rfl]
    cases ho : outputText? emptied.1 with
    | none =>
      rw [outputText?_eq_none_iff.1 ho] at hs
      cases hs
    | some said =>
      exact .updated hd hread (relocated_nil hl t.path) (hwrite.trans (Prod.ext ho rfl))

/-- The binaries behind one whose search path cannot be read get their turns all the same. -/
theorem course_of_failed_read [Elf.Decoder] {checked : Host} {pre : List Path} {p : Path}
    {start : Host} {fates : List (Path × Fate)} (post : List Path) (hl : b.lacksRoot = false)
    (hd : checked.IsDynamic p)
    (hc : Course b (.patchTool launch tool) (pre.map checked.asTarget) start fates h)
    (hr : succeeded (launch.call tool (.print p.text) h).1 = false) :
    let emptied := launch.call tool (.set [] p.text) (launch.call tool (.print p.text) h).2
    let fate := if succeeded emptied.1 then Fate.updated else .failed
    Turn b (.patchTool launch tool) (checked.asTarget p) h fate emptied.2
      ∧ ∃ fates' h',
        Course b (.patchTool launch tool) (post.map checked.asTarget) emptied.2 fates' h'
        ∧ Course b (.patchTool launch tool) ((pre ++ p :: post).map checked.asTarget) start
          (fates ++ (p, fate) :: fates') h' := by
  intro emptied fate
  have hdyn : (checked.asTarget p).dynamic = true := decide_eq_true hd
  have hturn := turn_of_failed_read hl hdyn hr
  obtain ⟨fates', h', hpost⟩ := exists_course hl (.patchTool launch tool)
    (post.map checked.asTarget) emptied.2
  refine ⟨hturn, fates', h', hpost, ?_⟩
  rw [List.map_append, List.map_cons]
  exact hc.append (.cons hturn hpost)

end Batch

namespace Launcher.Keeps

open Batch Editor

variable {b : Batch} {launch : Launcher} {tool p : Path} {binaries ps : List Path}
  {good : Host → Prop} {kept : Host → Bytes} {h h' : Host}

section

variable {t : Target} {fate : Fate} (hk : launch.Keeps tool binaries p good kept)
  (ht : Turn b (.patchTool launch tool) t h fate h') (hm : t.path ∈ binaries) (hg : good h)

include hk ht hm hg

theorem good_turn : good h' := by
  obtain rfl | ⟨entries, rfl⟩ := host_of_turn ht
  · exact hg
  · exact (hk.good_call t.path hm entries _ (hk.good_call t.path hm [] h hg).1).2

/-- The turn of another binary does not change the search path. -/
theorem kept_turn (hp : t.path ≠ p) : kept h' = kept h := by
  obtain rfl | ⟨entries, rfl⟩ := host_of_turn ht
  · rfl
  · rw [hk.set_other t.path hm hp entries _ (hk.good_call t.path hm [] h hg).1,
      hk.print t.path hm h hg]

end

section

variable [Elf.Decoder] {checked : Host} {fates : List (Path × Fate)}
  (hk : launch.Keeps tool binaries p good kept)
  (hc : Course b (.patchTool launch tool) (ps.map checked.asTarget) h fates h')
  (hm : ∀ q ∈ ps, q ∈ binaries) (hg : good h)

include hk hc hm hg

theorem good_course : good h' := by
  refine hc.preserves (fun t ht s fate s₁ hturn hs => ?_) hg
  obtain ⟨q, hq, rfl⟩ := List.mem_map.1 ht
  exact hk.good_turn hturn (hm q hq) hs

/-- The turns of other binaries do not change the search path. -/
theorem kept_course (hp : p ∉ ps) : kept h' = kept h := by
  -- the tool promises something only as long as the host is good, so both go along the course
  have hboth : good h' ∧ kept h' = kept h := by
    refine hc.preserves (P := fun s => good s ∧ kept s = kept h) ?_ ⟨hg, rfl⟩
    intro t ht s fate s₁ hturn ⟨hs, he⟩
    obtain ⟨q, hq, rfl⟩ := List.mem_map.1 ht
    have hqp : q ≠ p := fun e => hp (e ▸ hq)
    exact ⟨hk.good_turn hturn (hm q hq) hs, (hk.kept_turn hturn (hm q hq) hs hqp).trans he⟩
  exact hboth.2

end

end Launcher.Keeps

end

/-- A path that occurs once among the fates is reported with its own fate only. -/
theorem Report.mem_withFate_iff {p : Path} {fates fates' : List (Path × Fate)}
    (hpre : p ∉ fates.map Prod.fst) (hpost : p ∉ fates'.map Prod.fst) (fate other : Fate) :
    p ∈ withFate other (fates ++ (p, fate) :: fates') ↔ other = fate := by
  have hne : ∀ {l : List (Path × Fate)}, p ∉ l.map Prod.fst → (p, other) ∉ l :=
    fun hl hm => hl (List.mem_map_of_mem hm)
  rw [mem_withFate, List.mem_append, List.mem_cons]
  constructor
  · rintro (hm | hm | hm)
    · exact absurd hm (hne hpre)
    · exact congrArg Prod.snd hm
    · exact absurd hm (hne hpost)
  · rintro rfl
    exact .inr (.inl rfl)

namespace Workshop

open Batch Editor

section

variable [Tool.Lookup] [Elf.Decoder] [Path.Router Char]

variable {σ : Type} {k : Workshop σ} {b : Batch} {w w' : World σ} {finding : Tool.Finding}
  {pre post : List Path} {p : Path} {fates : List (Path × Fate)} {h : Host}

/-- When the turn of a dynamic binary comes and its search path cannot be read, the tool is told to
set the empty one. If that succeeds the binary counts as updated and its search path is empty;
otherwise it counts as failed and keeps its search path. The batch goes on in both cases. -/
theorem relocate_after_failed_read (ha : b.Accepted w.host) (hb : b.binaries = pre ++ p :: post)
    (hd : w.host.IsDynamic p) (hf : k.findTool w = (.ok finding, w'))
    (hpre : b.relocateEach (.patchTool k.launch finding.path) (pre.map w.host.asTarget) w'.host
      = (.ok fates, h))
    (hread : succeeded (k.launch.call finding.path (.print p.text) h).1 = false) :
    let printed := (k.launch.call finding.path (.print p.text) h).2
    let emptied := k.launch.call finding.path (.set [] p.text) printed
    let fate := if succeeded emptied.1 then Fate.updated else .failed
    ∃ fates' h',
      b.relocateEach (.patchTool k.launch finding.path) (post.map w.host.asTarget) emptied.2
        = (.ok fates', h')
      ∧ fates.map Prod.fst = pre ∧ fates'.map Prod.fst = post
      ∧ k.relocate b w
        = (.ok (.ofFates (fates ++ (p, fate) :: fates')), { w' with host := h' })
      ∧ (p ∉ pre → p ∉ post →
        let report := Report.ofFates (fates ++ (p, fate) :: fates')
        (p ∈ report.updated ↔ succeeded emptied.1 = true)
          ∧ (p ∈ report.failed ↔ succeeded emptied.1 = false))
      ∧ ∀ good kept, k.launch.Keeps finding.path b.binaries p good kept → good w'.host →
        kept emptied.2 = (if succeeded emptied.1 then [] else kept h)
        ∧ (p ∉ pre → kept h = kept w'.host) ∧ (p ∉ post → kept h' = kept emptied.2) := by
  intro printed emptied fate
  have hcpre := course_of_relocateEach ha.1 hpre
  obtain ⟨hturn, fates', h', hcpost, hall⟩ := course_of_failed_read post ha.1 hd hcpre hread
  have hmem : ∀ q ∈ pre ++ p :: post, q ∈ b.binaries := fun q hq => hb ▸ hq
  obtain ⟨hmpre, hmp, hmpost⟩ := List.forall_mem_append.1 hmem |>.imp_right List.forall_mem_cons.1
  refine ⟨fates', h', hcpost.relocateEach_eq, hcpre.map_fst_asTarget, hcpost.map_fst_asTarget,
    ?_, fun hp hp' => ?_, fun good kept hk hg => ?_⟩
  · rw [← hb] at hall
    exact (Outcome.done ha ⟨p, hmp, hd⟩ hf hall).relocate_eq
  · rw [← hcpre.map_fst_asTarget] at hp
    rw [← hcpost.map_fst_asTarget] at hp'
    have hiff := Report.mem_withFate_iff hp hp' fate
    refine ⟨(hiff .updated).trans ?_, (hiff .failed).trans ?_⟩ <;>
      cases hs : succeeded emptied.1 <;> simp [fate, hs]
  · have hgh := hk.good_course hcpre hmpre hg
    exact ⟨hk.kept_emptied hmp hgh, hk.kept_course hcpre hmpre hg,
      hk.kept_course hcpost hmpost (hk.good_turn hturn hmp hgh)⟩

end

open Host

/-- A host with a patch tool, and a binary whose search path can be set but not be read. -/
def guardedHost : Host where
  tree := .ofList [(["bin".toList], .directory), (["lib".toList], .directory),
    (["bin".toList, "sh".toList], .file (.native .shell) true),
    (["bin".toList, "patchelf".toList], .file (.script ⟨"/bin/sh".toList, .keeper⟩) true),
    (["lib".toList, "a.so".toList], .file (.native .succeed) true),
    (["lib".toList, "a.so.rpath".toList], .file (.data (Text.utf8 "/old/lib\n".toList)) false),
    (["lib".toList, "a.so.rfail".toList], .file (.data []) false)]
  cwd := .existing []
  searchPath := "/bin".toList
  home := []

/-- The same host with a binary whose search path can be read and set, and one whose search path can
be read but not be set. -/
def sharedHost : Host :=
  { guardedHost with
    tree := guardedHost.tree.insertAll [
      (["lib".toList, "b.so".toList], .file (.native .succeed) true),
      (["lib".toList, "b.so.rpath".toList], .file (.data (Text.utf8 "/old/b\n".toList)) false),
      (["lib".toList, "c.so".toList], .file (.native .succeed) true),
      (["lib".toList, "c.so.rpath".toList], .file (.data (Text.utf8 "/old/c\n".toList)) false),
      (["lib".toList, "c.so.wfail".toList], .file (.data []) false)] }

/-- A binary whose search path cannot be read, behind one that is updated and in front of one that
fails. -/
theorem relocate_after_failed_read_of_keeping :
    let p : Path := ⟨"/lib/a.so".toList⟩
    let before : Path := ⟨"/lib/b.so".toList⟩
    let behind : Path := ⟨"/lib/c.so".toList⟩
    let finding : Tool.Finding := ⟨⟨"/bin/patchelf".toList⟩, .searchPath⟩
    let k : Workshop Unit := ⟨{}, none, .keeping⟩
    let w : World Unit := ⟨sharedHost, { finding? := some finding }, ()⟩
    let b := Batch.absolute [before, p, behind] ⟨"/old".toList⟩
      (.ofList [("/old".toList, "/new".toList)])
    let editor := patchTool k.launch finding.path
    let h := (b.relocateEach editor ([before].map w.host.asTarget) w.host).2
    (b.Accepted w.host ∧ b.binaries = [before] ++ p :: [behind] ∧ w.host.IsDynamic p
      ∧ k.findTool w = (.ok finding, w)
      ∧ b.relocateEach editor ([before].map w.host.asTarget) w.host = (.ok [(before, .updated)], h)
      ∧ succeeded (k.launch.call finding.path (.print p.text) h).1 = false
      ∧ k.launch.Keeps finding.path b.binaries p (Launcher.BesideApart b.binaries p)
        (Launcher.keptBeside p.text)
      ∧ Launcher.BesideApart b.binaries p w.host)
    ∧ Launcher.keptBeside p.text w.host = Text.utf8 "/old/lib".toList
    ∧ ∃ h', k.relocate b w = (.ok ⟨[before, p], [behind], []⟩, { w with host := h' })
      ∧ Launcher.keptBeside p.text h' = [] := by
  intro p before behind finding k w b editor h
  have ha : b.Accepted w.host := by
    refine ⟨rfl, fun q hq => accepts_iff.2 ?_⟩
    revert q
    decide +kernel
  have hd : w.host.IsDynamic p := by decide +kernel
  have hpre : b.relocateEach editor ([before].map w.host.asTarget) w.host
      = (.ok [(before, .updated)], h) := Prod.ext (by decide +kernel) (by simp only [h])
  have hread : succeeded (k.launch.call finding.path (.print p.text) h).1 = false := by
    decide +kernel
  have hkeep : k.launch.Keeps finding.path b.binaries p (Launcher.BesideApart b.binaries p)
      (Launcher.keptBeside p.text) := Launcher.keeps_keeping finding.path (by decide)
  have hgood : Launcher.BesideApart b.binaries p w.host := by decide +kernel
  let emptied := k.launch.call finding.path (.set [] p.text)
    (k.launch.call finding.path (.print p.text) h).2
  have hset : succeeded emptied.1 = true := by decide +kernel
  have hlast : (b.relocateEach editor ([behind].map w.host.asTarget) emptied.2).1
      = .ok [(behind, .failed)] := by decide +kernel
  obtain ⟨fates', h', hpost, -, -, hrun, -, hkept⟩ :=
    relocate_after_failed_read ha (show b.binaries = [before] ++ p :: [behind] from rfl) hd
      (show k.findTool w = (.ok finding, w) from rfl) hpre hread
  obtain ⟨hemptied, -, hrest⟩ := hkept _ _ hkeep hgood
  obtain rfl : fates' = [(behind, .failed)] :=
    Except.ok.inj ((congrArg Prod.fst hpost).symm.trans hlast)
  rw [if_pos hset] at hrun hemptied
  refine ⟨⟨ha, rfl, hd, rfl, hpre, hread, hkeep, hgood⟩, by decide +kernel, h', hrun, ?_⟩
  rw [hrest (by decide), hemptied]

/-- The batch that replaces one prefix in the search path of this binary empties it. -/
theorem emptied_by_failed_read :
    let p : Path := ⟨"/lib/a.so".toList⟩
    let tool : Path := ⟨"/bin/patchelf".toList⟩
    let file := beside p.text ".rpath"
    let k : Workshop Unit := ⟨{}, none, Host.launch⟩
    let w : World Unit := ⟨guardedHost, {}, ()⟩
    let b := Batch.absolute [p] ⟨"/old".toList⟩ (.ofList [("/old".toList, "/new".toList)])
    b.targets w.host = .ok [⟨p, true⟩]
      ∧ succeeded (k.launch.call tool (.print p.text) w.host).1 = false
      ∧ w.host.read file = .ok (Text.utf8 "/old/lib\n".toList)
      ∧ (k.relocate b w).1 = .ok ⟨[p], [], []⟩
      ∧ (k.relocate b w).2.host.read file = .ok (Text.utf8 "\n".toList) := by
  decide +kernel

end Workshop

end Rehome
