import Rehome.Proofs.Relocation.Outcome

/-!
# A batch that fails touches nothing

A batch ends in a fault for one of three causes: it lacks the root that it needs, one of its
binaries is rejected, or the patch tool is needed and not found. All of them are found out before
the first search path is read (`failing_batch_touches_nothing`).
-/

namespace Rehome

section

variable [Elf.Decoder] [Path.Router Char]

namespace Batch

variable {σ : Type} {b : Batch} {h : Host} {editor : Editor σ} {s : σ} {fault : Fault}

theorem relocateWith_eq_error_iff :
    (b.relocateWith h editor s).1 = .error fault ↔ b.Refused h fault := by
  constructor
  · intro he
    obtain ha | ⟨fault', hr⟩ := accepted_or_refused b h
    · obtain ⟨fates, s₁, hc⟩ := exists_course ha.1 editor (b.binaries.map h.asTarget) s
      rw [relocateWith_of_accepted ha hc] at he
      cases he
    · rw [relocateWith_of_refused hr] at he
      cases he
      exact hr
  · intro hr
    rw [relocateWith_of_refused hr]

/-- Recorded, a batch comes out as it would otherwise; if it fails there is nothing on record. -/
theorem relocateWith_recorded (b : Batch) (h : Host) (editor : Editor σ) (s : σ) :
    ∃ log, b.relocateWith h editor.recorded (s, [])
        = ((b.relocateWith h editor s).1, (b.relocateWith h editor s).2, log)
      ∧ ∀ fault, (b.relocateWith h editor s).1 = .error fault →
        log = [] ∧ (b.relocateWith h editor s).2 = s := by
  obtain ha | ⟨fault, hr⟩ := accepted_or_refused b h
  · -- recording is an editor too, and takes the same course
    obtain ⟨fates, s₁, hc⟩ := exists_course ha.1 editor (b.binaries.map h.asTarget) s
    obtain ⟨outs, -, hc'⟩ := hc.recorded []
    refine ⟨[] ++ Editor.accesses outs, ?_, fun fault he => ?_⟩
    · rw [relocateWith_of_accepted ha hc, relocateWith_of_accepted ha hc']
    · rw [relocateWith_of_accepted ha hc] at he
      cases he
  · refine ⟨[], ?_, fun _ _ => ⟨rfl, ?_⟩⟩
    · rw [relocateWith_of_refused hr, relocateWith_of_refused hr]
    · rw [relocateWith_of_refused hr]

end Batch

namespace Workshop

open Batch

variable [Tool.Lookup] {σ : Type} {k : Workshop σ} {b : Batch} {w : World σ} {fault : Fault}

/-- A batch fails in a workshop because it is refused, or for want of the tool. -/
theorem refused_or_toolless (he : (k.relocate b w).1 = .error fault) :
    b.Refused w.host fault
      ∨ b.Accepted w.host ∧ (∃ p ∈ b.binaries, w.host.IsDynamic p)
        ∧ ∃ w', k.findTool w = (.error fault, w') := by
  obtain ⟨result, w', ho⟩ := exists_outcome k b w
  rw [ho.relocate_eq] at he
  cases ho with
  | refused hr =>
    cases he
    exact .inl hr
  | skipped ha hs => cases he
  | toolless ha hd hf =>
    cases he
    exact .inr ⟨ha, hd, w', hf⟩
  | done ha hd hf hc => cases he

theorem relocate_eq_error_iff :
    (k.relocate b w).1 = .error fault ↔ b.Refused w.host fault
      ∨ (b.Accepted w.host ∧ (∃ p ∈ b.binaries, w.host.IsDynamic p)
        ∧ (k.findTool w).1 = .error fault) := by
  constructor
  · intro he
    obtain hr | ⟨ha, hd, w', hf⟩ := refused_or_toolless he
    · exact .inl hr
    · exact .inr ⟨ha, hd, by rw [hf]⟩
  · rintro (hr | ⟨ha, hd, hf⟩)
    · rw [(Outcome.refused (k := k) hr).relocate_eq]
    · have hf' : k.findTool w = (.error fault, (k.findTool w).2) := Prod.ext hf rfl
      rw [(Outcome.toolless ha hd hf').relocate_eq]

/-- When a batch fails, how programs are started has no part in what comes of it. -/
theorem relocate_of_launch (he : (k.relocate b w).1 = .error fault) (launch : Launcher) :
    { k with launch }.relocate b w = k.relocate b w := by
  obtain hr | ⟨ha, hd, w', hf⟩ := refused_or_toolless he
  · exact (Outcome.refused hr).relocate_eq.trans (Outcome.refused hr).relocate_eq.symm
  · have hf' : { k with launch }.findTool w = (.error fault, w') := hf
    exact (Outcome.toolless ha hd hf').relocate_eq.trans
      (Outcome.toolless ha hd hf).relocate_eq.symm

/-- A batch that fails leaves the world as the search for the tool leaves it, and that is not even
begun if a check has failed. -/
theorem snd_relocate_of_error (he : (k.relocate b w).1 = .error fault) :
    (k.relocate b w).2 = w ∨ b.Accepted w.host ∧ (k.relocate b w).2 = (k.findTool w).2 := by
  obtain hr | ⟨ha, hd, w', hf⟩ := refused_or_toolless he
  · rw [(Outcome.refused hr).relocate_eq]
    exact .inl rfl
  · rw [(Outcome.toolless ha hd hf).relocate_eq, hf]
    exact .inr ⟨ha, rfl⟩

end Workshop

namespace Batch

variable [Tool.Lookup] {σ τ : Type}

/-- A batch fails for the stated causes only, and before any search path is read or written. -/
theorem failing_batch_touches_nothing (b : Batch) (h : Host) (editor : Editor σ) (s : σ)
    (k : Workshop τ) (w : World τ) (fault : Fault) :
    ((b.relocateWith h editor s).1 = .error fault ↔ b.Refused h fault)
    ∧ (∃ log, b.relocateWith h editor.recorded (s, [])
        = ((b.relocateWith h editor s).1, (b.relocateWith h editor s).2, log)
      ∧ ((b.relocateWith h editor s).1 = .error fault →
        log = [] ∧ (b.relocateWith h editor s).2 = s))
    ∧ ((k.relocate b w).1 = .error fault ↔ b.Refused w.host fault
      ∨ (b.Accepted w.host ∧ (∃ p ∈ b.binaries, w.host.IsDynamic p)
        ∧ (k.findTool w).1 = .error fault))
    ∧ (b.Refused w.host fault → k.relocate b w = (.error fault, w))
    ∧ ((k.relocate b w).1 = .error fault →
      ((k.relocate b w).2 = w ∨ b.Accepted w.host ∧ (k.relocate b w).2 = (k.findTool w).2)
      ∧ ∀ launch, { k with launch }.relocate b w = k.relocate b w)
    ∧ (b.Accepted h → ∀ binary entries, ∃ out, b.relocated binary entries = .ok out) := by
  obtain ⟨log, hlog, hnone⟩ := relocateWith_recorded b h editor s
  refine ⟨relocateWith_eq_error_iff, ⟨log, hlog, hnone fault⟩, Workshop.relocate_eq_error_iff,
    fun hr => (Workshop.Outcome.refused hr).relocate_eq, fun he => ?_,
    fun ha => exists_relocated ha.1⟩
  exact ⟨Workshop.snd_relocate_of_error he, Workshop.relocate_of_launch he⟩

end Batch

end

namespace Batch

/-- A batch with a binary that is missing, and one that lacks nothing but the tool. -/
theorem failing_batch_touches_nothing_of_missing :
    let here : Path := ⟨"/lib/a.so".toList⟩
    let gone : Path := ⟨"/lib/b.so".toList⟩
    let host : Host := ⟨.ofList [(["lib".toList], .directory),
      (["lib".toList, "a.so".toList], .file (.native .succeed) true)], .existing [], [], []⟩
    let missing := Fault.error (.doesNotExist gone)
    let notFound := Fault.error (.toolNotFound "patchelf".toList)
    let editor := Editor.patchTool Host.launch ⟨"/bin/patchelf".toList⟩
    let k : Workshop Unit := ⟨{}, none, Host.launch⟩
    let w : World Unit := ⟨host, {}, ()⟩
    let b := Batch.absolute [here, gone] ⟨"/old".toList⟩ .empty
    let b' := Batch.absolute [here] ⟨"/old".toList⟩ .empty
    (b.Refused host missing
      ∧ (∃ log, b.relocateWith host editor.recorded (host, []) = (.error missing, host, log)
        ∧ log = [])
      ∧ k.relocate b w = (.error missing, w))
    ∧ (b'.Accepted host ∧ (k.relocate b' w).1 = .error notFound
      ∧ ∀ launch, (Workshop.mk k.settings k.installer? launch).relocate b' w = k.relocate b' w)
    ∧ ∃ out, b'.relocated here [] = .ok out := by
  intro here gone host missing notFound editor k w b b'
  obtain ⟨hiff, ⟨log, hlog, hnone⟩, -, hsame, -⟩ :=
    failing_batch_touches_nothing b host editor host k w missing
  obtain ⟨-, -, hiff', -, hlaunch, hout⟩ :=
    failing_batch_touches_nothing b' host editor host k w notFound
  have hhere : host.Accepts here := accepts_iff.2 (by decide +kernel)
  have hr : b.Refused host missing :=
    ⟨[here], gone, [], rfl, List.forall_mem_singleton.2 hhere, .missing (by decide +kernel)⟩
  have ha : b'.Accepted host := ⟨rfl, List.forall_mem_singleton.2 hhere⟩
  have hf := hiff'.2
    (.inr ⟨ha, ⟨here, List.mem_cons_self, by decide +kernel⟩, by decide +kernel⟩)
  have he := hiff.2 hr
  rw [he, (hnone he).2] at hlog
  exact ⟨⟨hr, ⟨log, hlog, (hnone he).1⟩, hsame hr⟩, ⟨ha, hf, (hlaunch hf).2⟩, hout ha here []⟩

end Batch

end Rehome
