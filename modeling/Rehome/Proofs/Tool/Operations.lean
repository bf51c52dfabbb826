import Rehome.Proofs.Tool.Recording
import Rehome.Session.Step

/-!
# Operations on one cache

`Operation` lists what can happen in worlds with one cache: jobs in any workshops, looks into the
cache, resets, and changes of everything else by others. Every job gives an answer at once or has a
use for the tool, which is then looked for first (`Workshop.perform_eq`). One step of a run fills an
empty cache with what was found and leaves a full one as it is (`Operation.finding_run`); recorded,
it does the same (`Operation.run_recorded`), and whether an earlier search broke off makes no
difference to it (`Operation.run_congr`).
-/

namespace Rehome

open Tool Session

variable {σ : Type}

/-! ## Jobs -/

/-- What a workshop can be asked to do. -/
inductive Job where
  | findTool
  | read (binary : Path)
  | write (binary : Path) (entries : List Text)
  | relocate (batch : Batch)
  | isMovable (binary : Path)

/-- What a job comes to on a host: an answer at once, or something to do with the tool. -/
inductive Plan where
  | answer (answer : Except Fault Answer)
  | withTool (act : Finding → Host → Except Fault Answer × Host)

namespace Plan

variable [Lookup]

/-- Carries out a plan. The tool is looked for only if the plan has a use for it. -/
def run (f : Finder σ) : Plan → World σ → Except Fault Answer × World σ
  | answer a, w => (a, w)
  | withTool act, w =>
    match f.find w with
    | (.error fault, w) => (.error fault, w)
    | (.ok finding, w) => ((act finding w.host).1, { w with host := (act finding w.host).2 })

/-- What the search for the tool comes to, if the plan has a use for it. -/
def resolution? (f : Finder σ) : Plan → World σ → Option (Except Fault Finding)
  | answer _, _ => none
  | withTool _, w => some (f.find w).1

/-- The plan to have an editor do something. -/
def edit {α : Type} (launch : Launcher) (answer : α → Answer)
    (act : Editor Host → Host → Except Fault α × Host) : Plan :=
  .withTool fun finding h =>
    let (result, h) := act (.patchTool launch finding.path) h
    (result.map answer, h)

end Plan

namespace Workshop

variable [Lookup] [Elf.Decoder] [Path.Router Char]

def perform (k : Workshop σ) (job : Job) (w : World σ) : Except Fault Answer × World σ :=
  match job with
  | .findTool => ((k.findTool w).1.map .finding, (k.findTool w).2)
  | .read p => ((k.read p w).1.map .texts, (k.read p w).2)
  | .write p entries => ((k.write p entries w).1.map .said, (k.write p entries w).2)
  | .relocate b => ((k.relocate b w).1.map .report, (k.relocate b w).2)
  | .isMovable p => ((k.isMovable p w).1.map .flag, (k.isMovable p w).2)

/-- What a job comes to in a workshop: everything that can be told without the tool is told. -/
def plan (k : Workshop σ) (job : Job) (h : Host) : Plan :=
  match job with
  | .findTool => .withTool fun finding h => (.ok (.finding finding), h)
  | .read p => .edit k.launch .texts fun editor h =>
    let (entries, h) := editor.read p h
    (.ok entries, h)
  | .write p entries => .edit k.launch .said fun editor h =>
    let (said, h) := editor.write p entries h
    (.ok said, h)
  | .relocate b =>
    match b.targets h with
    | .error fault => .answer (.error fault)
    | .ok ts =>
      if ts.all fun t => !t.dynamic then .answer (.ok (.report (Batch.allSkipped ts)))
      else .edit k.launch .report fun editor h => b.relocateTargets editor ts h
  | .isMovable p =>
    match h.checkBinary p with
    | .error error => .answer (.error (.error error))
    | .ok p =>
      match h.format p with
      | .error fault => .answer (.error fault)
      | .ok .macho => .answer (.error (.error (machoRefusal p)))
      | .ok format =>
        if !format.isBinary then .answer (.ok (.flag false))
        else if k.settings.roots = [] then .answer (.ok (.flag true))
        else .edit k.launch .flag fun editor h =>
          let (entries, h) := editor.read p h
          (k.isFreeOfRoots h p entries, h)

variable (k : Workshop σ) (w : World σ)

omit [Elf.Decoder] [Path.Router Char] in
theorem run_edit {α : Type} (answer : α → Answer)
    (act : Editor Host → Host → Except Fault α × Host) :
    (Plan.edit k.launch answer act).run k.finder w
      = ((k.withTool act w).1.map answer, (k.withTool act w).2) := by
  have hf : k.findTool w = k.finder.find w := rfl
  simp only [Plan.edit, Plan.run, withTool, hf]
  rcases k.finder.find w with ⟨fault | finding, w'⟩ <;> rfl

theorem perform_eq (job : Job) : k.perform job w = (k.plan job w.host).run k.finder w := by
  cases job with
  | findTool =>
    have hf : k.findTool w = k.finder.find w := rfl
    simp only [perform, plan, Plan.run, hf]
    rcases k.finder.find w with ⟨fault | finding, w'⟩ <;> rfl
  | read p => exact (k.run_edit w _ _).symm
  | write p entries => exact (k.run_edit w _ _).symm
  | relocate b =>
    simp only [perform, plan, relocate]
    cases b.targets w.host with
    | error fault => rfl
    | ok ts =>
      simp only
      split
      · rfl
      · exact (k.run_edit w _ _).symm
  | isMovable p =>
    simp only [perform, plan, isMovable]
    cases w.host.checkBinary p with
    | error error => rfl
    | ok p =>
      simp only
      rcases w.host.format p with fault | dynamic | - | -
      · rfl
      · simp only
        split
        · rfl
        split
        · rfl
        rw [run_edit]
        simp only [read, withTool]
        rcases k.findTool w with ⟨fault | finding, w'⟩ <;> rfl
      · rfl
      · rfl

end Workshop

/-! ## Operations -/

/-- What can happen in worlds with one cache. -/
inductive Operation (σ : Type) where
  /-- Any workshop may be at work: with any tool name, search path, installer and launcher. -/
  | work (k : Workshop σ) (job : Job)
  | cached
  | reset
  /-- Others change the host or the state of the installers. -/
  | change (f : Host × σ → Host × σ)

namespace Operation

variable [Lookup] [Elf.Decoder] [Path.Router Char]

def run : Operation σ → World σ → Except Fault Answer × World σ
  | work k job, w => k.perform job w
  | cached, w => (.ok (.cached w.cache.finding?), w)
  | reset, w => (.ok .done, { w with cache := w.cache.reset })
  | change f, w => (.ok .done, ⟨(f (w.host, w.supply)).1, w.cache, (f (w.host, w.supply)).2⟩)

/-- What the search for the tool comes to, if the operation has a use for it. -/
def resolution? : Operation σ → World σ → Option (Except Fault Finding)
  | work k job, w => (k.plan job w.host).resolution? k.finder w
  | cached, _ | reset, _ | change _, _ => none

def isReset : Operation σ → Bool
  | reset => true
  | work _ _ | cached | change _ => false

end Operation

/-! ## Caches -/

namespace Plan

variable [Lookup] {f : Finder σ} {w : World σ} {finding : Finding}

theorem resolution?_of_cached (plan : Plan) (hc : w.cache.finding? = some finding) :
    plan.resolution? f w = none ∨ plan.resolution? f w = some (.ok finding) := by
  cases plan with
  | answer a => exact .inl rfl
  | withTool act => exact .inr (by rw [resolution?, Finder.find_of_cached hc])

/-- The cache is what the search for the tool leaves of it. -/
theorem cache_run (act : Finding → Host → Except Fault Answer × Host) :
    ((withTool act).run f w).2.cache = (f.find w).2.cache := by
  simp only [run]
  rcases f.find w with ⟨fault | finding, w'⟩ <;> rfl

/-- A full cache stays as it is, and an empty one keeps what is found. -/
theorem finding_run (plan : Plan) :
    (plan.run f w).2.cache.finding?
      = w.cache.finding?.or ((plan.resolution? f w).bind Except.toOption) := by
  cases plan with
  | answer a => exact (Option.or_none).symm
  | withTool act =>
    rw [cache_run]
    cases hc : w.cache.finding? with
    | some finding => rw [Finder.find_of_cached hc, hc, Option.some_or]
    | none => exact (Finder.find_of_empty hc).2

end Plan

namespace Operation

variable [Lookup] [Elf.Decoder] [Path.Router Char] {op : Operation σ} {w : World σ}
  {finding : Finding}

theorem resolution?_of_cached (op : Operation σ) (hc : w.cache.finding? = some finding) :
    op.resolution? w = none ∨ op.resolution? w = some (.ok finding) := by
  cases op with
  | work k job => exact Plan.resolution?_of_cached _ hc
  | cached | reset | change f => exact .inl rfl

/-- A full cache stays as it is unless it is reset, and an empty one keeps what is found. -/
theorem finding_run (hr : op.isReset = false) :
    (op.run w).2.cache.finding?
      = w.cache.finding?.or ((op.resolution? w).bind Except.toOption) := by
  cases op with
  | work k job =>
    rw [run, Workshop.perform_eq]
    exact Plan.finding_run _
  | cached => exact (Option.or_none).symm
  | reset => cases hr
  | change f => exact (Option.or_none).symm

end Operation

/-! ## Broken off searches -/

/-- Two worlds differ at most in whether a search has broken off in them. -/
structure World.Alike (w w' : World σ) : Prop where
  host : w.host = w'.host
  finding : w.cache.finding? = w'.cache.finding?
  supply : w.supply = w'.supply

variable {w w' : World σ}

theorem Tool.Finder.cacheAfter_congr {c c' : Cache} (hc : c.finding? = c'.finding?)
    (result : Except Fault Finding) :
    (cacheAfter c result).finding? = (cacheAfter c' result).finding? := by
  cases result with
  | ok finding => rfl
  | error fault => cases fault <;> exact hc

section

variable [Lookup]

theorem Tool.Finder.find_congr (f : Finder σ) (hw : w.Alike w') :
    (f.find w).1 = (f.find w').1 ∧ (f.find w).2.Alike (f.find w').2 := by
  unfold find
  rw [hw.finding, hw.host, hw.supply]
  cases hc : w'.cache.finding? with
  | some finding => exact ⟨rfl, hw⟩
  | none => exact ⟨rfl, rfl, cacheAfter_congr hw.finding _, rfl⟩

theorem Plan.run_congr (f : Finder σ) (plan : Plan) (hw : w.Alike w') :
    (plan.run f w).1 = (plan.run f w').1 ∧ (plan.run f w).2.Alike (plan.run f w').2 := by
  cases plan with
  | answer a => exact ⟨rfl, hw⟩
  | withTool act =>
    obtain ⟨hresult, halike⟩ := f.find_congr hw
    simp only [run]
    rcases hv : f.find w with ⟨result, v⟩
    rcases hv' : f.find w' with ⟨result', v'⟩
    rw [hv, hv'] at hresult halike
    obtain rfl : result = result' := hresult
    cases result with
    | error fault => exact ⟨rfl, halike⟩
    | ok finding =>
      have hhost : v.host = v'.host := halike.host
      simp only [hhost]
      exact ⟨trivial, rfl, halike.finding, halike.supply⟩

variable [Elf.Decoder] [Path.Router Char]

/-- No operation notices that an earlier search has broken off. -/
theorem Operation.run_congr (op : Operation σ) (hw : w.Alike w') :
    (op.run w).1 = (op.run w').1 ∧ (op.run w).2.Alike (op.run w').2 := by
  cases op with
  | work k job =>
    rw [run, run, k.perform_eq, k.perform_eq, hw.host]
    exact Plan.run_congr _ _ hw
  | cached => exact ⟨congrArg (Except.ok ∘ Answer.cached) hw.finding, hw⟩
  | reset => exact ⟨rfl, hw.host, rfl, hw.supply⟩
  | change f =>
    simp only [run, hw.host, hw.supply]
    exact ⟨trivial, rfl, hw.finding, rfl⟩

end

/-! ## Operations on record -/

def Workshop.recorded (k : Workshop σ) : Workshop (σ × List Inquiry) :=
  ⟨k.settings, k.installer?.map Installer.recorded, k.launch⟩

/-- The operation with installers that note what they are asked for. -/
def Operation.recorded : Operation σ → Operation (σ × List Inquiry)
  | work k job => .work k.recorded job
  | cached => .cached
  | reset => .reset
  | change f => .change fun s => withNotes (f (s.1, s.2.1)) s.2.2

variable [Lookup]

theorem Plan.run_recorded (f : Finder σ) (plan : Plan) (w : World σ) (notes : List Inquiry) :
    ∃ noted, plan.run f.recorded (w.recording notes)
        = ((plan.run f w).1, (plan.run f w).2.recording (notes ++ noted))
      ∧ usableInstallations noted + w.filled ≤ (plan.run f w).2.filled
      ∧ (w.cache.finding?.isSome → noted = []) := by
  cases plan with
  | answer a =>
    exact ⟨[], by rw [List.append_nil]; rfl, Nat.le_of_eq (Nat.zero_add _), fun _ => rfl⟩
  | withTool act =>
    obtain ⟨noted, hfind, hcount, hnone⟩ := f.find_recorded w notes
    refine ⟨noted, ?_, ?_, hnone⟩
    · simp only [run, hfind]
      rcases f.find w with ⟨fault | finding, w'⟩ <;> rfl
    · rwa [World.filled, World.filled, cache_run]

variable [Elf.Decoder] [Path.Router Char]

/-- Recorded, an operation does what it would do otherwise. It asks for nothing if the cache is
full, and each installation that leaves the tool fills an empty cache, which only a reset
empties. -/
theorem Operation.run_recorded (op : Operation σ) (w : World σ) (notes : List Inquiry) :
    ∃ noted, op.recorded.run (w.recording notes)
        = ((op.run w).1, (op.run w).2.recording (notes ++ noted))
      ∧ usableInstallations noted + w.filled ≤ (op.run w).2.filled + op.isReset.toNat
      ∧ (w.cache.finding?.isSome → noted = []) := by
  cases op with
  | work k job =>
    have hplan : k.recorded.plan job w.host = k.plan job w.host := by cases job <;> rfl
    rw [recorded, run, run, k.perform_eq, k.recorded.perform_eq]
    have h := Plan.run_recorded k.finder (k.plan job w.host) w notes
    rw [← hplan] at h ⊢
    exact h
  | cached =>
    exact ⟨[], by rw [List.append_nil]; rfl, Nat.le_of_eq (Nat.zero_add _), fun _ => rfl⟩
  | reset =>
    refine ⟨[], by rw [List.append_nil]; rfl, ?_, fun _ => rfl⟩
    rw [usableInstallations_nil, Nat.zero_add]
    exact Nat.le_trans (Bool.toNat_le _) (Nat.le_add_left 1 _)
  | change f =>
    exact ⟨[], by rw [List.append_nil]; rfl, Nat.le_of_eq (Nat.zero_add _), fun _ => rfl⟩

end Rehome
