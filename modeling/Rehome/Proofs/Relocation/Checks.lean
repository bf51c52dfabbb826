import Rehome.Relocation.Run

/-!
# The checks before a batch

`Host.Rejects` lists what a binary can be rejected for, each with what was found in order before it.
The checks of a batch end at the first binary that is rejected (`targets_of_refused`), and
otherwise single out the dynamic ones (`targets_of_accepted`).
-/

namespace Rehome

variable [Elf.Decoder]

namespace Host

/-- Why a binary is rejected: the first of the checks that it does not pass. -/
inductive Rejects (h : Host) (p : Path) : Fault → Prop where
  | missing (hs : h.leadsSomewhere p = false) : Rejects h p (.error (.doesNotExist p))
  | relative (hs : h.leadsSomewhere p = true) (ha : p.isAbsolute = false) :
    Rejects h p (.error (.notAbsolute p))
  | unreadable {cause : Files.AccessError} (hs : h.leadsSomewhere p = true)
    (ha : p.isAbsolute = true) (hr : h.read p = .error cause) :
    Rejects h p (.error (.unreadable p cause.message.toList))
  | macho {bytes : Bytes} (hs : h.leadsSomewhere p = true) (ha : p.isAbsolute = true)
    (hr : h.read p = .ok bytes) (hf : Binary.Format.ofBytes? bytes = some .macho) :
    Rejects h p (.error (.unsupported
      ("RPATH relocation of Mach-O binaries (".toList ++ p.text ++ [')'])))
  /-- Telling the format breaks off. -/
  | untold {bytes : Bytes} (hs : h.leadsSomewhere p = true) (ha : p.isAbsolute = true)
    (hr : h.read p = .ok bytes) (hf : Binary.Format.ofBytes? bytes = none) : Rejects h p .crash

def Accepts (h : Host) (p : Path) : Prop := ∀ fault, ¬ h.Rejects p fault

/-- Whether a path leads to a dynamic ELF file. -/
def IsDynamic (h : Host) (p : Path) : Prop := h.format p = .ok (.elf true)

instance (h : Host) (p : Path) : Decidable (h.IsDynamic p) :=
  inferInstanceAs (Decidable (h.format p = .ok (.elf true)))

/-- A binary as it comes out of the checks. -/
def asTarget (h : Host) (p : Path) : Target := ⟨p, h.IsDynamic p⟩

theorem all_asTarget_iff {h : Host} {ps : List Path} :
    ((ps.map h.asTarget).all fun t => !t.dynamic) = true ↔ ∀ p ∈ ps, ¬ h.IsDynamic p := by
  simp [asTarget]

end Host

namespace Batch

open Host

variable {h : Host} {p : Path} {ps : List Path} {fault : Fault}

theorem target_of_rejects (hr : h.Rejects p fault) : target h p = .error fault := by
  cases hr with
  | missing hs => simp [target, checkBinary, hs]
  | relative hs ha => simp [target, checkBinary, hs, ha]
  | unreadable hs ha hr => simp [target, checkBinary, hs, ha, format, readBinary, hr]
  | macho hs ha hr hf =>
    simp [target, checkBinary, hs, ha, format, readBinary, hr, hf, machoRefusal]
  | untold hs ha hr hf => simp [target, checkBinary, hs, ha, format, readBinary, hr, hf]

theorem rejects_or_target (h : Host) (p : Path) :
    (∃ fault, h.Rejects p fault) ∨ target h p = .ok (h.asTarget p) := by
  cases hs : h.leadsSomewhere p with
  | false => exact .inl ⟨_, .missing hs⟩
  | true =>
    cases ha : p.isAbsolute with
    | false => exact .inl ⟨_, .relative hs ha⟩
    | true =>
      cases hr : h.read p with
      | error cause => exact .inl ⟨_, .unreadable hs ha hr⟩
      | ok bytes =>
        cases hf : Binary.Format.ofBytes? bytes with
        | none => exact .inl ⟨_, .untold hs ha hr hf⟩
        | some format =>
          cases format with
          | macho => exact .inl ⟨_, .macho hs ha hr hf⟩
          | other =>
            right
            simp [target, checkBinary, hs, ha, Host.format, readBinary, hr, hf, asTarget, IsDynamic,
              Binary.Format.isBinary]
          | elf dynamic =>
            right
            cases dynamic <;>
              simp [target, checkBinary, hs, ha, Host.format, readBinary, hr, hf, asTarget,
                IsDynamic, Binary.Format.isBinary]

theorem target_of_accepts (ha : h.Accepts p) : target h p = .ok (h.asTarget p) := by
  obtain ⟨fault, hr⟩ | hok := rejects_or_target h p
  · exact absurd hr (ha fault)
  · exact hok

theorem accepts_iff : h.Accepts p ↔ target h p = .ok (h.asTarget p) := by
  refine ⟨target_of_accepts, fun hok fault hr => ?_⟩
  rw [target_of_rejects hr] at hok
  cases hok

theorem targetsOf_of_accepts (ha : ∀ p ∈ ps, h.Accepts p) :
    targetsOf h ps = .ok (ps.map h.asTarget) := by
  induction ps with
  | nil => rfl
  | cons p ps ih =>
    rw [targetsOf, target_of_accepts (ha p List.mem_cons_self),
      ih fun q hq => ha q (List.mem_cons_of_mem p hq)]
    rfl

/-- The checks end at a binary that is rejected if those before it pass. -/
theorem targetsOf_of_rejects {pre post : List Path} (ha : ∀ q ∈ pre, h.Accepts q)
    (hr : h.Rejects p fault) : targetsOf h (pre ++ p :: post) = .error fault := by
  induction pre with
  | nil => simp [targetsOf, target_of_rejects hr]
  | cons q pre ih =>
    rw [List.cons_append, targetsOf, target_of_accepts (ha q List.mem_cons_self),
      ih fun q' hq => ha q' (List.mem_cons_of_mem q hq)]
    rfl

/-- Binaries all pass the checks, or there is a first one that does not. -/
theorem accepts_or_first_rejected (h : Host) (ps : List Path) :
    (∀ p ∈ ps, h.Accepts p) ∨ ∃ pre p post fault, ps = pre ++ p :: post
      ∧ (∀ q ∈ pre, h.Accepts q) ∧ h.Rejects p fault := by
  induction ps with
  | nil => exact .inl (by simp)
  | cons p ps ih =>
    -- nothing behind a binary that is rejected is looked at, so its own faults do not count
    obtain ⟨fault, hr⟩ | hok := rejects_or_target h p
    · exact .inr ⟨[], p, ps, fault, rfl, by simp, hr⟩
    · have hp := accepts_iff.2 hok
      obtain hall | ⟨pre, q, post, fault, rfl, ha, hr⟩ := ih
      · exact .inl (List.forall_mem_cons.2 ⟨hp, hall⟩)
      · exact .inr ⟨p :: pre, q, post, fault, rfl, List.forall_mem_cons.2 ⟨hp, ha⟩, hr⟩

/-- What a batch is refused for before any binary is touched: it lacks a root, which is found out
without a look at the files, or else for its first binary that is rejected. -/
def Refused (b : Batch) (h : Host) (fault : Fault) : Prop :=
  if b.lacksRoot then
    fault = .error (.invalidRequest "relative relocation requires a new root".toList)
  else ∃ pre p post, b.binaries = pre ++ p :: post ∧ (∀ q ∈ pre, h.Accepts q) ∧ h.Rejects p fault

/-- A batch is accepted if it does not lack a root and none of its binaries is rejected. -/
def Accepted (b : Batch) (h : Host) : Prop :=
  b.lacksRoot = false ∧ ∀ p ∈ b.binaries, h.Accepts p

variable {b : Batch}

theorem targets_of_accepted (ha : b.Accepted h) :
    b.targets h = .ok (b.binaries.map h.asTarget) := by
  rw [targets, ha.1, if_neg Bool.false_ne_true, targetsOf_of_accepts ha.2]

theorem targets_of_refused (hr : b.Refused h fault) : b.targets h = .error fault := by
  unfold Refused at hr
  split at hr
  · rename_i hl
    rw [targets, if_pos hl, hr]
    rfl
  · rename_i hl
    obtain ⟨pre, p, post, hb, ha, hp⟩ := hr
    rw [targets, if_neg hl, hb, targetsOf_of_rejects ha hp]

theorem accepted_or_refused (b : Batch) (h : Host) :
    b.Accepted h ∨ ∃ fault, b.Refused h fault := by
  unfold Accepted Refused
  by_cases hl : b.lacksRoot = true
  · exact .inr ⟨_, by rw [if_pos hl]⟩
  · obtain ha | ⟨pre, p, post, fault, hb, ha, hp⟩ := accepts_or_first_rejected h b.binaries
    · exact .inl ⟨Bool.eq_false_iff.2 hl, ha⟩
    · exact .inr ⟨fault, by rw [if_neg hl]; exact ⟨pre, p, post, hb, ha, hp⟩⟩

end Batch

end Rehome
