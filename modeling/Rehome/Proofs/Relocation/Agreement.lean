import Rehome.Proofs.Relocation.Outcome
import Rehome.Proofs.Tool.Keeping
import Rehome.Proofs.Tool.Operations

/-!
# A workshop relocates as an editor does

A workshop that knows its patch tool does to a batch what the editor of that tool does, file for
file (`relocate_of_cached`). It has a short cut for batches without a dynamic binary, which agrees
with the turns that such a batch would take (`relocateWith_of_not_dynamic`), and on which no tool is
looked for (`relocate_of_not_dynamic`).
-/

namespace Rehome

namespace Batch

theorem allSkipped_eq (ts : List Target) : allSkipped ts = ⟨[], [], ts.map Target.path⟩ := by
  have hall : ts.filter (fun _ => true) = ts := List.filter_eq_self.2 fun _ _ => rfl
  simp [allSkipped, Report.ofFates, Report.withFate, List.filter_map, Function.comp_def, hall]

end Batch

section

variable [Elf.Decoder]

namespace Batch

variable {σ : Type} {b : Batch} {h : Host}

theorem allSkipped_asTarget (ps : List Path) : allSkipped (ps.map h.asTarget) = ⟨[], [], ps⟩ := by
  rw [allSkipped_eq, List.map_map]
  exact congrArg _ (List.map_id ps)

variable [Path.Router Char]

omit [Elf.Decoder] in
/-- Binaries that are not dynamic are all skipped, and the editor is left alone. -/
theorem course_of_not_dynamic {ts : List Target} (hts : ∀ t ∈ ts, t.dynamic = false)
    (editor : Editor σ) (s : σ) :
    Course b editor ts s (ts.map fun t => (t.path, .skipped)) s := by
  induction ts with
  | nil => exact .nil s
  | cons t ts ih =>
    obtain ⟨ht, hts⟩ := List.forall_mem_cons.1 hts
    exact .cons (.skipped ht) (ih hts)

/-- A batch without a dynamic binary is skipped as a whole. -/
theorem relocateWith_of_not_dynamic (ha : b.Accepted h) (hd : ∀ p ∈ b.binaries, ¬ h.IsDynamic p)
    (editor : Editor σ) (s : σ) :
    b.relocateWith h editor s = (.ok ⟨[], [], b.binaries⟩, s) := by
  have hts : ∀ t ∈ b.binaries.map h.asTarget, t.dynamic = false :=
    List.forall_mem_map.2 fun p hp => decide_eq_false (hd p hp)
  rw [relocateWith_of_accepted ha (course_of_not_dynamic hts editor s), ← allSkipped_asTarget]
  rfl

end Batch

namespace Workshop

open Batch

variable [Tool.Lookup] [Path.Router Char] {σ : Type} {k : Workshop σ} {b : Batch} {w : World σ}

/-- A batch without a dynamic binary changes nothing in the world, and needs no tool. -/
theorem relocate_of_not_dynamic (ha : b.Accepted w.host)
    (hd : ∀ p ∈ b.binaries, ¬ w.host.IsDynamic p) :
    k.relocate b w = (.ok ⟨[], [], b.binaries⟩, w) := by
  rw [(Outcome.skipped ha hd).relocate_eq, allSkipped_asTarget]

/-- A workshop that has its tool in the cache does what the editor of that tool does. -/
theorem relocate_of_cached {finding : Tool.Finding} (hc : w.cache.finding? = some finding)
    {result : Except Fault Report} {h : Host}
    (he : b.relocateWith w.host (.patchTool k.launch finding.path) w.host = (result, h)) :
    k.relocate b w = (result, { w with host := h }) := by
  have hfound : k.findTool w = (.ok finding, w) := Tool.Finder.find_of_cached hc
  obtain ⟨result', w', ho⟩ := exists_outcome k b w
  rw [ho.relocate_eq]
  cases ho with
  | refused hr =>
    rw [relocateWith_of_refused hr] at he
    cases he
    rfl
  | skipped ha hd =>
    rw [relocateWith_of_not_dynamic ha hd] at he
    cases he
    rw [allSkipped_asTarget]
  | toolless ha hd hf =>
    rw [hfound] at hf
    cases hf
  | done ha hd hf hturns =>
    rw [hfound] at hf
    cases hf
    rw [relocateWith_of_accepted ha hturns] at he
    cases he
    rfl

/-- With its tool in the cache a workshop relocates as the editor of that tool does. A batch without
a dynamic binary comes out the same with any tool or none: nothing in the world changes then, and no
installer is asked for anything. -/
theorem relocate_agrees (k : Workshop σ) (b : Batch) (w : World σ) :
    (∀ finding, w.cache.finding? = some finding →
      k.relocate b w
        = ((b.relocateWith w.host (.patchTool k.launch finding.path) w.host).1,
          { w with host := (b.relocateWith w.host (.patchTool k.launch finding.path) w.host).2 }))
    ∧ (b.Accepted w.host → (∀ p ∈ b.binaries, ¬ w.host.IsDynamic p) →
      (∀ tool, b.relocateWith w.host (.patchTool k.launch tool) w.host
          = (.ok ⟨[], [], b.binaries⟩, w.host))
      ∧ k.relocate b w = (.ok ⟨[], [], b.binaries⟩, w)
      ∧ ∀ notes, k.recorded.relocate b (w.recording notes)
          = (.ok ⟨[], [], b.binaries⟩, w.recording notes)) := by
  refine ⟨fun finding hc => relocate_of_cached hc rfl, fun ha hd => ⟨fun tool => ?_, ?_, ?_⟩⟩
  · exact relocateWith_of_not_dynamic ha hd _ w.host
  · exact relocate_of_not_dynamic ha hd
  · intro notes
    have ha' : b.Accepted (w.recording notes).host := ha
    exact relocate_of_not_dynamic ha' hd

end Workshop

end

namespace Workshop

open Batch

/-- A batch with a dynamic binary and the tool in the cache; and one of a script alone, in a
workshop that has no tool and no way to get one. -/
theorem relocate_agrees_of_script :
    let library : Path := ⟨"/lib/a.so".toList⟩
    let script : Path := ⟨"/lib/run.sh".toList⟩
    let host : Host := ⟨.ofList [(["lib".toList], .directory),
      (["lib".toList, "a.so".toList], .file (.native .succeed) true),
      (["lib".toList, "a.so.rpath".toList], .file (.data (Text.utf8 "/old/lib".toList)) false),
      (["lib".toList, "run.sh".toList], .file (.data (Text.utf8 "#!/bin/sh\n".toList)) true)],
      .existing [], [], []⟩
    let finding : Tool.Finding := ⟨⟨"/bin/patchelf".toList⟩, .searchPath⟩
    let k : Workshop Unit := ⟨{}, none, .keeping⟩
    let w : World Unit := ⟨host, { finding? := some finding }, ()⟩
    let w' : World Unit := ⟨host, {}, ()⟩
    let b := Batch.absolute [library, script] ⟨"/old".toList⟩
      (.ofList [("/old".toList, "/new".toList)])
    let b' := Batch.absolute [script] ⟨"/old".toList⟩ .empty
    let editor := Editor.patchTool k.launch finding.path
    (w.cache.finding? = some finding
      ∧ (k.relocate b w).1 = .ok ⟨[library], [], [script]⟩
      ∧ k.relocate b w = ((b.relocateWith host editor host).1,
        { w with host := (b.relocateWith host editor host).2 }))
    ∧ b'.Accepted w'.host ∧ (∀ p ∈ b'.binaries, ¬ w'.host.IsDynamic p)
      ∧ (k.findTool w').1 = .error (.error (.toolNotFound "patchelf".toList))
      ∧ b'.relocateWith host editor host = (.ok ⟨[], [], [script]⟩, host)
      ∧ k.relocate b' w' = (.ok ⟨[], [], [script]⟩, w')
      ∧ k.recorded.relocate b' (w'.recording []) = (.ok ⟨[], [], [script]⟩, w'.recording []) := by
  intro library script host finding k w w' b b' editor
  have ha : b'.Accepted w'.host :=
    ⟨rfl, List.forall_mem_singleton.2 (accepts_iff.2 (by decide +kernel))⟩
  have hd : ∀ p ∈ b'.binaries, ¬ w'.host.IsDynamic p :=
    List.forall_mem_singleton.2 (by decide +kernel)
  obtain ⟨heditor, hsame, hnotes⟩ := (relocate_agrees k b' w').2 ha hd
  exact ⟨⟨rfl, by decide +kernel, (relocate_agrees k b w).1 finding rfl⟩, ha, hd,
    by decide +kernel, heditor finding.path, hsame, hnotes []⟩

end Workshop

end Rehome
