import Rehome.Proofs.Relocation.MovedTree
import Rehome.Proofs.Rpath.FixedPoint
import Rehome.Workshop

/-!
# Entries left under the old root

Prefixes are replaced in the text of an entry, whereas an entry lies under a root by the place that
it leads to. So of the entries that are relocated from one root to another, some may still lie under
the old one: those that lead there without being written with it, and those in which what follows
the root leads back to it (`Batch.Stays`). There are no others, in particular none if all that is
written with the old root, or lies under it, goes on downwards from there
(`Batch.relocated_under_old_root_iff`).
-/

namespace Rehome

open Location Rpath Rehome.Path

theorem Component.exists_names_of_up_notMem {cs : List Component} (hs : ∀ c ∈ cs, c.IsStep)
    (hu : Component.up ∉ cs) : ∃ names : List Text, cs = names.map .name := by
  induction cs with
  | nil => exact ⟨[], rfl⟩
  | cons c cs ih =>
    obtain ⟨hc, hcs⟩ := List.forall_mem_cons.1 hs
    obtain ⟨names, rfl⟩ := ih hcs (List.not_mem_of_not_mem_cons hu)
    cases c with
    | name t => exact ⟨t :: names, rfl⟩
    | up => exact absurd List.mem_cons_self hu
    | root | here => exact hc.elim

/-- Whether what follows a root in a text goes on downwards from there: it does not continue the
last name of the root, and has no step up. -/
def Rpath.GoesDown (rest : Text) : Prop :=
  (rest = [] ∨ rest.head? = some '/') ∧ Component.up ∉ (Path.mk rest).steps

instance (rest : Text) : Decidable (GoesDown rest) := inferInstanceAs (Decidable (_ ∧ _))

theorem Workshop.liesUnderRoot_singleton (root : Path) (entry : Text) :
    liesUnderRoot [root] entry = liesBelow root entry := by
  simp [liesUnderRoot, liesBelow]

variable {old new : Path} {rest entry out : Text}

/-- Going down from one of two roots that are apart does not lead under the other. -/
theorem Rpath.GoesDown.not_liesBelow (hr : GoesDown rest) (ho : old.isAbsolute = true)
    (hn : new.isAbsolute = true) (hno : new.liesUnder old = false)
    (hon : old.liesUnder new = false) : liesBelow old (new.text ++ rest) = false := by
  have ha := isAbsolute_append hn rest
  have hsteps : ∀ c ∈ (Path.mk rest).steps, c.IsStep := fun c hc => isStep_of_mem_steps hc
  obtain ⟨names, hnames⟩ := Component.exists_names_of_up_notMem hsteps hr.2
  have hloc : (Path.mk (new.text ++ rest)).resolve [] = new.resolve [] ++ names := by
    rw [resolve_append hn hr.1, hnames, foldl_step_names]
  rw [liesBelow, ofText_char, ha, Bool.true_and, Bool.eq_false_iff]
  intro hu
  rw [liesUnder_iff ha ho, hloc] at hu
  -- the root and the location below the other are beginnings of one location
  obtain h | h := List.prefix_or_prefix_of_prefix hu (List.prefix_append (new.resolve []) names)
  · rw [(liesUnder_iff hn ho).2 h] at hno
    cases hno
  · rw [(liesUnder_iff ho hn).2 h] at hon
    cases hon

namespace Batch

/-- How an entry comes to lie under the old root after its relocation to the new one. -/
inductive Stays (old new : Path) : Text → Text → Prop where
  /-- It leads there without being written with the old root, and is left alone. -/
  | kept {entry : Text} (hp : ¬ old.text <+: entry)
    (hu : Workshop.liesUnderRoot [old] entry = true) : Stays old new entry entry
  /-- What follows the old root does not go down, and leads back from the new one. -/
  | back {rest : Text} (hr : ¬ GoesDown rest)
    (hu : Workshop.liesUnderRoot [old] (new.text ++ rest) = true) :
    Stays old new (old.text ++ rest) (new.text ++ rest)

theorem stays_iff (ho : old.isAbsolute = true) (hn : new.isAbsolute = true)
    (hno : new.liesUnder old = false) (hon : old.liesUnder new = false) :
    Stays old new entry out
      ↔ Substitution.replace (.ofList [(old.text, new.text)]) entry = out
        ∧ Workshop.liesUnderRoot [old] out = true := by
  have hne : old.text ≠ [] := by
    intro e
    simp [Path.isAbsolute, e] at ho
  constructor
  · rintro (⟨hp, hu⟩ | ⟨-, hu⟩)
    · refine ⟨Substitution.replace_of_not_applies fun rule hr => ?_, hu⟩
      obtain rfl := List.mem_singleton.1 hr
      exact Bool.eq_false_iff.2 fun ha => hp (Substitution.applies_iff.1 ha).2
    · exact ⟨Substitution.replace_ofList_singleton hne, hu⟩
  · rintro ⟨rfl, hu⟩
    obtain ⟨hnone, he⟩ | ⟨rule, hr, rest, -, rfl, he⟩ :=
      Substitution.replace_cases (.ofList [(old.text, new.text)]) entry
    · rw [he] at hu ⊢
      refine .kept (fun hp => ?_) hu
      have ha := hnone (old.text, new.text) (List.mem_singleton.2 rfl)
      rw [Substitution.applies_iff.2 ⟨hne, hp⟩] at ha
      cases ha
    · obtain rfl := List.mem_singleton.1 hr
      rw [he] at hu ⊢
      refine .back (fun hdown => ?_) hu
      rw [Workshop.liesUnderRoot_singleton, hdown.not_liesBelow ho hn hno hon] at hu
      cases hu

/-- Of the entries that are relocated from one root to another that is apart from it, just those
that stay there still lie under the old one, and none if all that is written with the old root or
lies under it goes down from there. -/
theorem relocated_under_old_root_iff [Path.Router Char] {b : Batch} (hs : b.style = .absolute)
    (hm : b.substitution = .ofList [(old.text, new.text)]) (ho : old.isAbsolute = true)
    (hon : old.normalize = old) (hn : new.isAbsolute = true) (hnn : new.normalize = new)
    (h : new.startsWith old = false) (h' : old.startsWith new = false) (binary : Path)
    (entries : List Text) :
    ∃ out, b.relocated binary entries = .ok out
      ∧ (∀ o, o ∈ out ∧ Workshop.liesUnderRoot [old] o = true ↔ ∃ e ∈ entries, Stays old new e o)
      ∧ ((∀ e ∈ entries, old.text <+: e ∨ Workshop.liesUnderRoot [old] e = true →
          ∃ rest, e = old.text ++ rest ∧ GoesDown rest) →
        ∀ o ∈ out, Workshop.liesUnderRoot [old] o = false) := by
  have hno : new.liesUnder old = false := by rwa [liesUnder, hnn, hon]
  have hon' : old.liesUnder new = false := by rwa [liesUnder, hnn, hon]
  have hiff : ∀ o, o ∈ b.substitution.replaceAll entries ∧ Workshop.liesUnderRoot [old] o = true
      ↔ ∃ e ∈ entries, Stays old new e o := by
    intro o
    simp only [stays_iff ho hn hno hon', Substitution.mem_replaceAll, hm]
    constructor
    · rintro ⟨⟨e, he, ho⟩, hu⟩
      exact ⟨e, he, ho, hu⟩
    · rintro ⟨e, he, ho, hu⟩
      exact ⟨⟨e, he, ho⟩, hu⟩
  refine ⟨_, by simp [relocated, hs], hiff, fun hall o hmem => Bool.eq_false_iff.2 fun hu => ?_⟩
  obtain ⟨e, he, hstay⟩ := (hiff o).1 ⟨hmem, hu⟩
  cases hstay with
  | kept hp hu =>
    obtain ⟨rest, rfl, -⟩ := hall o he (.inr hu)
    exact hp (List.prefix_append old.text rest)
  | back hr hu =>
    obtain ⟨rest, e, hdown⟩ := hall _ he (.inl (List.prefix_append old.text _))
    exact hr (List.append_cancel_left e ▸ hdown)

/-- A library in the old root, one in the system, and two ways back to the old root. -/
theorem relocated_under_old_root_iff_of_library :
    let old : Path := ⟨"/old".toList⟩
    let new : Path := ⟨"/new".toList⟩
    let b := Batch.absolute [] old (.ofList [(old.text, new.text)])
    let binary : Path := ⟨"/new/bin/tool".toList⟩
    let entries := ["/old/lib".toList, "/usr/lib".toList]
    let astray := ["/x/../old/lib".toList, "/old/../old/lib".toList]
    let out := ["/new/lib".toList, "/usr/lib".toList]
    let out' := ["/x/../old/lib".toList, "/new/../old/lib".toList]
    (b.style = .absolute ∧ b.substitution = .ofList [(old.text, new.text)]
      ∧ old.isAbsolute = true ∧ old.normalize = old ∧ new.isAbsolute = true ∧ new.normalize = new
      ∧ new.startsWith old = false ∧ old.startsWith new = false)
    ∧ b.relocated binary entries = .ok out ∧ b.relocated binary astray = .ok out'
    ∧ (∀ o ∈ out, Workshop.liesUnderRoot [old] o = false)
    ∧ ∀ o, o ∈ out' ∧ Workshop.liesUnderRoot [old] o = true ↔ ∃ e ∈ astray, Stays old new e o := by
  intro old new b binary entries astray out out'
  have hout : b.relocated binary entries = .ok out := by decide
  have hout' : b.relocated binary astray = .ok out' := by decide
  have hdown : ∀ e ∈ entries, old.text <+: e ∨ Workshop.liesUnderRoot [old] e = true →
      ∃ rest, e = old.text ++ rest ∧ GoesDown rest := by
    intro e he hu
    obtain rfl | he := List.mem_cons.1 he
    · exact ⟨"/lib".toList, by decide, by decide⟩
    · obtain rfl := List.mem_singleton.1 he
      exact absurd hu (by decide)
  have hm : b.substitution = .ofList [(old.text, new.text)] := rfl
  obtain ⟨_, ho, -, hnone⟩ := relocated_under_old_root_iff rfl hm (by decide) (by decide)
    (by decide) (by decide) (by decide) (by decide) binary entries
  obtain ⟨_, ho', hiff, -⟩ := relocated_under_old_root_iff rfl hm (by decide) (by decide)
    (by decide) (by decide) (by decide) (by decide) binary astray
  obtain rfl := Except.ok.inj (hout.symm.trans ho)
  obtain rfl := Except.ok.inj (hout'.symm.trans ho')
  exact ⟨⟨rfl, rfl, by decide⟩, hout, hout', hnone hdown, hiff⟩

/-- An entry that leads under the old root, but is not written with it, is left there. -/
theorem relocated_keeps_detour :
    let old : Path := ⟨"/old".toList⟩
    let new : Path := ⟨"/new".toList⟩
    let b := Batch.absolute [] old (.ofList [(old.text, new.text)])
    (old.isAbsolute = true ∧ old.normalize = old ∧ new.isAbsolute = true ∧ new.normalize = new
      ∧ new.startsWith old = false ∧ old.startsWith new = false)
    ∧ b.relocated ⟨"/new/bin/tool".toList⟩ ["/x/../old/lib".toList] = .ok ["/x/../old/lib".toList]
    ∧ Workshop.liesUnderRoot [old] "/x/../old/lib".toList = true := by
  decide

end Batch

end Rehome
