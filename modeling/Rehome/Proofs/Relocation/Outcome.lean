import Rehome.Proofs.Relocation.Checks
import Rehome.Proofs.Relocation.Course
import Rehome.Workshop

/-!
# Outcomes

What can come of a batch: with an editor it is refused or runs its course
(`relocateWith_of_accepted`), and in a workshop it may also end without a need for the patch tool,
or for want of it (`Workshop.Outcome`).
-/

namespace Rehome

variable [Elf.Decoder] [Path.Router Char]

namespace Batch

variable {σ : Type} {b : Batch} {h : Host} {fault : Fault}

theorem relocateWith_of_refused (hr : b.Refused h fault) (editor : Editor σ) (s : σ) :
    b.relocateWith h editor s = (.error fault, s) :=
  relocateWith_of_error (targets_of_refused hr) editor s

/-- The course of a batch that is not refused. -/
theorem relocateWith_of_accepted (ha : b.Accepted h) {editor : Editor σ} {s s₁ : σ}
    {fates : List (Path × Fate)}
    (hc : Course b editor (b.binaries.map h.asTarget) s fates s₁) :
    b.relocateWith h editor s = (.ok (.ofFates fates), s₁) := by
  rw [relocateWith, targets_of_accepted ha]
  exact hc.relocateTargets_eq

/-- The fates of checked binaries are those of the binaries, in order. -/
theorem Course.map_fst_asTarget {ps : List Path} {editor : Editor σ} {s s₁ : σ}
    {fates : List (Path × Fate)} (hc : Course b editor (ps.map h.asTarget) s fates s₁) :
    fates.map Prod.fst = ps := by
  rw [hc.map_fst, List.map_map]
  exact List.map_id ps

end Batch

namespace Workshop

open Batch

variable [Tool.Lookup] {σ : Type} {k : Workshop σ} {b : Batch} {w : World σ}

/-- What can come of a batch in a workshop, and the world afterwards. -/
inductive Outcome (k : Workshop σ) (b : Batch) (w : World σ) :
    Except Fault Report → World σ → Prop where
  | refused {fault : Fault} (hr : b.Refused w.host fault) : Outcome k b w (.error fault) w
  /-- No binary is dynamic, and the tool is not looked for. -/
  | skipped (ha : b.Accepted w.host) (hs : ∀ p ∈ b.binaries, ¬ w.host.IsDynamic p) :
    Outcome k b w (.ok (allSkipped (b.binaries.map w.host.asTarget))) w
  /-- The tool is not found. -/
  | toolless {fault : Fault} {w' : World σ} (ha : b.Accepted w.host)
    (hd : ∃ p ∈ b.binaries, w.host.IsDynamic p) (hf : k.findTool w = (.error fault, w')) :
    Outcome k b w (.error fault) w'
  | done {finding : Tool.Finding} {w' : World σ} {fates : List (Path × Fate)} {h : Host}
    (ha : b.Accepted w.host) (hd : ∃ p ∈ b.binaries, w.host.IsDynamic p)
    (hf : k.findTool w = (.ok finding, w'))
    (hc : Course b (.patchTool k.launch finding.path) (b.binaries.map w.host.asTarget) w'.host
      fates h) :
    Outcome k b w (.ok (.ofFates fates)) { w' with host := h }

theorem Outcome.relocate_eq {result : Except Fault Report} {w' : World σ}
    (ho : Outcome k b w result w') : k.relocate b w = (result, w') := by
  cases ho with
  | refused hr => rw [relocate, targets_of_refused hr]
  | skipped ha hs =>
    rw [relocate, targets_of_accepted ha]
    exact if_pos (Host.all_asTarget_iff.2 hs)
  | toolless ha hd hf =>
    obtain ⟨p, hp, hd⟩ := hd
    rw [relocate, targets_of_accepted ha]
    refine (if_neg fun hs => Host.all_asTarget_iff.1 hs p hp hd).trans ?_
    rw [withTool, hf]
  | done ha hd hf hc =>
    obtain ⟨p, hp, hd⟩ := hd
    rw [relocate, targets_of_accepted ha]
    refine (if_neg fun hs => Host.all_asTarget_iff.1 hs p hp hd).trans ?_
    rw [withTool, hf]
    simp only [hc.relocateTargets_eq]

theorem exists_outcome (k : Workshop σ) (b : Batch) (w : World σ) :
    ∃ result w', Outcome k b w result w' := by
  obtain ha | ⟨fault, hr⟩ := accepted_or_refused b w.host
  · by_cases hd : ∃ p ∈ b.binaries, w.host.IsDynamic p
    · cases hf : k.findTool w with
      | mk result w' =>
        cases result with
        | error fault => exact ⟨_, _, .toolless ha hd hf⟩
        | ok finding =>
          obtain ⟨fates, h, hc⟩ := exists_course ha.1 (.patchTool k.launch finding.path)
            (b.binaries.map w.host.asTarget) w'.host
          exact ⟨_, _, .done ha hd hf hc⟩
    · exact ⟨_, _, .skipped ha fun p hp hp' => hd ⟨p, hp, hp'⟩⟩
  · exact ⟨_, _, .refused hr⟩

end Workshop

end Rehome
