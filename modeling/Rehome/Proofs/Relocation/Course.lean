import Rehome.Relocation.Run

/-!
# The course of a batch

`Turn` says all that can happen when the turn of a binary comes, and `Course` strings turns
together. In a batch that has the root it needs every binary gets its turn, whatever the editor does
(`exists_course`). `Editor.recorded` notes each access to a search path and changes nothing else:
the dynamic binaries are read and written once each, in order (`Course.recorded`).
-/

namespace Rehome

/-- The path of a target whose search path is to be relocated. -/
def Target.dynamicPath? (t : Target) : Option Path := if t.dynamic then some t.path else none

namespace Batch

variable {σ : Type} [Path.Router Char]

/-- What can happen when the turn of a binary comes. -/
inductive Turn (b : Batch) (editor : Editor σ) (t : Target) (s : σ) : Fate → σ → Prop where
  | skipped (hd : t.dynamic = false) : Turn b editor t s .skipped s
  | updated {entries out : List Text} {said : Text} {s₁ s₂ : σ} (hd : t.dynamic = true)
    (hr : editor.read t.path s = (entries, s₁)) (ho : b.relocated t.path entries = .ok out)
    (hw : editor.write t.path out s₁ = (some said, s₂)) : Turn b editor t s .updated s₂
  | failed {entries out : List Text} {s₁ s₂ : σ} (hd : t.dynamic = true)
    (hr : editor.read t.path s = (entries, s₁)) (ho : b.relocated t.path entries = .ok out)
    (hw : editor.write t.path out s₁ = (none, s₂)) : Turn b editor t s .failed s₂

/-- The turns of binaries one after the other, with their fates. -/
inductive Course (b : Batch) (editor : Editor σ) :
    List Target → σ → List (Path × Fate) → σ → Prop where
  | nil (s : σ) : Course b editor [] s [] s
  | cons {t : Target} {ts : List Target} {fate : Fate} {fates : List (Path × Fate)} {s s₁ s₂ : σ} :
    Turn b editor t s fate s₁ → Course b editor ts s₁ fates s₂ →
      Course b editor (t :: ts) s ((t.path, fate) :: fates) s₂

variable {b : Batch} {editor : Editor σ} {t : Target} {ts us : List Target} {fate : Fate}
  {fates fates' : List (Path × Fate)} {s s₁ s₂ : σ}

theorem Turn.relocateTarget_eq (ht : Turn b editor t s fate s₁) :
    b.relocateTarget editor t s = (.ok fate, s₁) := by
  cases ht with
  | skipped hd => simp [relocateTarget, hd]
  | updated hd hr ho hw => simp [relocateTarget, hd, hr, ho, hw]
  | failed hd hr ho hw => simp [relocateTarget, hd, hr, ho, hw]

theorem Course.relocateEach_eq (hc : Course b editor ts s fates s₁) :
    b.relocateEach editor ts s = (.ok fates, s₁) := by
  induction hc with
  | nil => rfl
  | cons ht _ ih =>
    rw [relocateEach, ht.relocateTarget_eq]
    simp only [ih]
    rfl

theorem Course.relocateTargets_eq (hc : Course b editor ts s fates s₁) :
    b.relocateTargets editor ts s = (.ok (.ofFates fates), s₁) := by
  simp only [relocateTargets, hc.relocateEach_eq]
  rfl

section

variable (hl : b.lacksRoot = false)

include hl

theorem exists_relocated (binary : Path) (entries : List Text) :
    ∃ out, b.relocated binary entries = .ok out := by
  have h := relocated_isOk b binary entries
  cases ho : b.relocated binary entries with
  | ok out => exact ⟨out, rfl⟩
  | error error => simp [ho, hl, Except.isOk, Except.toBool] at h

theorem exists_turn (editor : Editor σ) (t : Target) (s : σ) :
    ∃ fate s₁, Turn b editor t s fate s₁ := by
  cases hd : t.dynamic with
  | false => exact ⟨_, _, .skipped hd⟩
  | true =>
    obtain ⟨out, ho⟩ := exists_relocated hl t.path (editor.read t.path s).1
    cases hw : editor.write t.path out (editor.read t.path s).2 with
    | mk said s₂ =>
      cases said with
      | none => exact ⟨_, _, .failed hd rfl ho hw⟩
      | some said => exact ⟨_, _, .updated hd rfl ho hw⟩

/-- A batch that has the root it needs comes to its end, whatever the editor does. -/
theorem exists_course (editor : Editor σ) (ts : List Target) (s : σ) :
    ∃ fates s₁, Course b editor ts s fates s₁ := by
  induction ts generalizing s with
  | nil => exact ⟨_, _, .nil s⟩
  | cons t ts ih =>
    obtain ⟨fate, s₁, ht⟩ := exists_turn hl editor t s
    obtain ⟨fates, s₂, hc⟩ := ih s₁
    exact ⟨_, _, .cons ht hc⟩

theorem course_of_relocateEach (hr : b.relocateEach editor ts s = (.ok fates, s₁)) :
    Course b editor ts s fates s₁ := by
  obtain ⟨fates', s₂, hc⟩ := exists_course hl editor ts s
  rw [hc.relocateEach_eq] at hr
  cases hr
  exact hc

end

theorem Course.append (hts : Course b editor ts s fates s₁)
    (hus : Course b editor us s₁ fates' s₂) :
    Course b editor (ts ++ us) s (fates ++ fates') s₂ := by
  induction hts with
  | nil => exact hus
  | cons ht _ ih => exact .cons ht (ih hus)

/-- The fates are those of the binaries, in order. -/
theorem Course.map_fst (hc : Course b editor ts s fates s₁) :
    fates.map Prod.fst = ts.map Target.path := by
  induction hc with
  | nil => rfl
  | cons _ _ ih => rw [List.map_cons, List.map_cons, ih]

/-- What every turn preserves is preserved by all of them. -/
theorem Course.preserves {P : σ → Prop} (hc : Course b editor ts s fates s₁)
    (hstep : ∀ t ∈ ts, ∀ s fate s₁, Turn b editor t s fate s₁ → P s → P s₁) (hs : P s) : P s₁ := by
  induction hc with
  | nil => exact hs
  | @cons t ts _ _ _ _ _ ht _ ih =>
    exact ih (fun u hu => hstep u (List.mem_cons_of_mem t hu))
      (hstep t List.mem_cons_self _ _ _ ht hs)

end Batch

namespace Editor

/-- What an editor is asked for. -/
inductive Access where
  | read (binary : Path)
  | write (binary : Path) (entries : List Text)
  deriving DecidableEq, Repr

/-- The editor that also notes what it is asked for. -/
def recorded {σ : Type} (editor : Editor σ) : Editor (σ × List Access) where
  read binary s :=
    let (entries, s') := editor.read binary s.1
    (entries, s', s.2 ++ [.read binary])
  write binary entries s :=
    let (said, s') := editor.write binary entries s.1
    (said, s', s.2 ++ [.write binary entries])

section

variable {σ : Type} {editor : Editor σ} {binary : Path} {entries : List Text} {said : Option Text}
  {s s₁ : σ}

theorem recorded_read (hr : editor.read binary s = (entries, s₁)) (log : List Access) :
    editor.recorded.read binary (s, log) = (entries, s₁, log ++ [.read binary]) := by
  simp only [recorded, hr]

theorem recorded_write (hw : editor.write binary entries s = (said, s₁)) (log : List Access) :
    editor.recorded.write binary entries (s, log)
      = (said, s₁, log ++ [.write binary entries]) := by
  simp only [recorded, hw]

end

/-- Each binary read and then written, with the entries written to it, one after the other. -/
def accesses (outs : List (Path × List Text)) : List Access :=
  outs.flatMap fun o => [.read o.1, .write o.1 o.2]

theorem accesses_append (outs outs' : List (Path × List Text)) :
    accesses (outs ++ outs') = accesses outs ++ accesses outs' := List.flatMap_append

end Editor

namespace Batch

variable {σ : Type} [Path.Router Char] {b : Batch} {editor : Editor σ} {s s₁ : σ}

/-- A dynamic binary is read and then written in its turn, and no other is accessed. -/
theorem Turn.recorded {t : Target} {fate : Fate} (ht : Turn b editor t s fate s₁)
    (log : List Editor.Access) :
    ∃ outs : List (Path × List Text), outs.map Prod.fst = [t].filterMap Target.dynamicPath?
      ∧ Turn b editor.recorded t (s, log) fate (s₁, log ++ Editor.accesses outs) := by
  cases ht with
  | skipped hd =>
    exact ⟨[], by simp [Target.dynamicPath?, hd], by simpa [Editor.accesses] using .skipped hd⟩
  | @updated entries out said _ _ hd hr ho hw =>
    refine ⟨[(t.path, out)], by simp [Target.dynamicPath?, hd], ?_⟩
    have hw' := Editor.recorded_write hw (log ++ [.read t.path])
    rw [List.append_assoc] at hw'
    exact .updated hd (Editor.recorded_read hr log) ho hw'
  | @failed entries out _ _ hd hr ho hw =>
    refine ⟨[(t.path, out)], by simp [Target.dynamicPath?, hd], ?_⟩
    have hw' := Editor.recorded_write hw (log ++ [.read t.path])
    rw [List.append_assoc] at hw'
    exact .failed hd (Editor.recorded_read hr log) ho hw'

/-- Each dynamic binary is read and then written once, in order. -/
theorem Course.recorded {ts : List Target} {fates : List (Path × Fate)}
    (hc : Course b editor ts s fates s₁) (log : List Editor.Access) :
    ∃ outs : List (Path × List Text), outs.map Prod.fst = ts.filterMap Target.dynamicPath?
      ∧ Course b editor.recorded ts (s, log) fates (s₁, log ++ Editor.accesses outs) := by
  induction hc generalizing log with
  | nil s => exact ⟨[], rfl, by simpa [Editor.accesses] using .nil (s, log)⟩
  | @cons t ts _ _ _ _ _ ht _ ih =>
    obtain ⟨outs, hfst, ht'⟩ := ht.recorded log
    obtain ⟨outs', hfst', hc'⟩ := ih (log ++ Editor.accesses outs)
    refine ⟨outs ++ outs', ?_, .cons ht' ?_⟩
    · rw [List.map_append, hfst, hfst', ← List.filterMap_append, List.singleton_append]
    · rwa [Editor.accesses_append, ← List.append_assoc]

end Batch

end Rehome
