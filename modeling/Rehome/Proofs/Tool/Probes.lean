import Mathlib.Logic.Function.Iterate
import Rehome.Proofs.Tool.Recording
import Rehome.Session.Supplier

/-!
# One probe after another

A search goes from probe to probe: the search path, an installed dependency, an installation. Each
probe leaves fewer of them to go (`Finder.remaining_advance`) and does not change what the search
comes to (`Finder.outcome_advance`), so it ends after three probes at most
(`Finder.iterate_advance`). With an empty cache a finder comes to what the first successful probe
finds, and asks the installer for no more than that takes (`Finder.find_first_success`).
-/

namespace Rehome.Tool

variable {σ : Type}

/-! ## Probes -/

/-- Where a search looks for the tool. -/
inductive Probe where
  | searchPath
  | installedDependency
  | installation
  deriving DecidableEq, Repr

/-- Where a search stands: before a probe, or at its end. -/
inductive Stage (σ : Type) where
  | before (probe : Probe) (s : Host × σ)
  | ended (result : Except Fault Finding) (s : Host × σ)

/-- How many probes there are to go, at most. -/
def Stage.remaining : Stage σ → Nat
  | before .searchPath _ => 3
  | before .installedDependency _ => 2
  | before .installation _ => 1
  | ended _ _ => 0

namespace Finder

section

variable [Lookup]

def probe (f : Finder σ) (s : Host × σ) : Probe → Stage σ
  | .searchPath =>
    match Lookup.find? s.1 f.toolName f.searchPath? with
    | some path => .ended (.ok ⟨path, .searchPath⟩) s
    | none => .before .installedDependency s
  | .installedDependency =>
    match f.installer? with
    | none => .ended (.error (.error (.toolNotFound f.toolName))) s
    | some installer =>
      match installer.availability f.toolName s with
      | (.installed path, s) =>
        if s.1.leadsSomewhere path then .ended (.ok ⟨path, .installed⟩) s
        else .before .installation s
      | (.missing, s) => .before .installation s
      | (.crashed, s) => .ended (.error .crash) s
  | .installation =>
    match f.installer? with
    | none => .ended (.error (.error (.toolNotFound f.toolName))) s
    | some installer => .ended (f.install installer s).1 (f.install installer s).2

/-- Takes the next probe, if the search has not ended. -/
def advance (f : Finder σ) : Stage σ → Stage σ
  | .before probe s => f.probe s probe
  | .ended result s => .ended result s

/-- What a search comes to from where it stands. -/
def outcome (f : Finder σ) : Stage σ → Except Fault Finding × (Host × σ)
  | .before .searchPath s => f.search s
  | .before .installedDependency s =>
    match f.installer? with
    | none => (.error (.error (.toolNotFound f.toolName)), s)
    | some installer => f.askInstaller installer s
  | .before .installation s =>
    match f.installer? with
    | none => (.error (.error (.toolNotFound f.toolName)), s)
    | some installer => f.install installer s
  | .ended result s => (result, s)

variable {f : Finder σ} {w : World σ} {stage : Stage σ}

theorem outcome_advance (f : Finder σ) (stage : Stage σ) :
    f.outcome (f.advance stage) = f.outcome stage := by
  cases stage with
  | ended result s => rfl
  | before probe s =>
    cases probe with
    | searchPath =>
      simp only [advance, Finder.probe, outcome, search]
      cases Lookup.find? s.1 f.toolName f.searchPath? <;> rfl
    | installedDependency =>
      simp only [advance, Finder.probe, outcome]
      cases f.installer? with
      | none => rfl
      | some installer =>
        simp only [askInstaller]
        rcases installer.availability f.toolName s with ⟨path | - | -, s'⟩
        · cases hl : s'.1.leadsSomewhere path <;> simp [hl]
        · rfl
        · rfl
    | installation =>
      simp only [advance, Finder.probe, outcome]
      cases f.installer? <;> rfl

theorem remaining_advance (f : Finder σ) (stage : Stage σ) :
    (f.advance stage).remaining ≤ stage.remaining - 1 := by
  cases stage with
  | ended result s => exact Nat.le_refl 0
  | before probe s =>
    cases probe <;> simp only [advance, Finder.probe] <;> repeat' split
    all_goals simp [Stage.remaining]

/-- As many probes as there are to go end a search, with what it comes to. -/
theorem iterate_advance {n : Nat} (h : stage.remaining ≤ n) :
    f.advance^[n] stage = .ended (f.outcome stage).1 (f.outcome stage).2 := by
  induction n generalizing stage with
  | zero =>
    cases stage with
    | ended result s => rfl
    | before probe s => cases probe <;> cases h
  | succ n ih =>
    have hstep := remaining_advance f stage
    rw [Function.iterate_succ_apply, ih (by omega), outcome_advance]

/-! ## What a finder does -/

/-- How a finder ends: with a result that is kept if it is a finding, with a state of the host and
the installer, and after it has asked the installer for what is noted, and for nothing else. -/
structure Ends (f : Finder σ) (w : World σ) (noted : List Inquiry)
    (result : Except Fault Finding) (s : Host × σ) : Prop where
  result_eq : (f.find w).1 = result
  host_eq : (f.find w).2.host = s.1
  supply_eq : (f.find w).2.supply = s.2
  kept : (f.find w).2.cache.finding? = result.toOption
  asked : ∀ notes, f.recorded.find (w.recording notes)
    = ((f.find w).1, (f.find w).2.recording (notes ++ noted))

variable {noted : List Inquiry} {result : Except Fault Finding} {s : Host × σ}

/-- A finder with an empty cache ends as the search does, on record or not. -/
theorem NotedSearch.ends (hs : NotedSearch f (w.host, w.supply) noted result s)
    (hc : w.cache.finding? = none) : f.Ends w noted result s := by
  have hfind := find_of_search hc hs.search
  have hresult : (f.find w).1 = result := by rw [hfind]
  refine ⟨hresult, by rw [hfind], by rw [hfind], hresult ▸ (find_of_empty hc).2, fun notes => ?_⟩
  have hc' : (w.recording notes).cache.finding? = none := hc
  rw [find_of_search hc' (hs.recorded notes), hfind]
  rfl

/-- With an empty cache a finder ends after three probes at most, with what the first of them that
succeeds has found:
* what is on the search path is found without a question to the installer;
* otherwise, without an installer, the tool is not found;
* otherwise the installer is asked once for an installed tool, which is found if it is there;
* otherwise it is asked once for an installation. If that fails, so does the finder, for the same
  reason; and what it leaves is found if it is there.
A finding is kept, and nothing else is. An installer that breaks off breaks off the search. -/
theorem find_first_success (f : Finder σ) (hc : w.cache.finding? = none) :
    (∃ n ≤ 3, f.advance^[n] (.before .searchPath (w.host, w.supply))
      = .ended (f.find w).1 ((f.find w).2.host, (f.find w).2.supply))
    ∧ (∀ path, Lookup.find? w.host f.toolName f.searchPath? = some path →
      f.Ends w [] (.ok ⟨path, .searchPath⟩) (w.host, w.supply))
    ∧ (Lookup.find? w.host f.toolName f.searchPath? = none →
      (f.installer? = none →
        f.Ends w [] (.error (.error (.toolNotFound f.toolName))) (w.host, w.supply))
      ∧ ∀ installer, f.installer? = some installer →
        (∀ path s, installer.availability f.toolName (w.host, w.supply) = (.installed path, s) →
          s.1.leadsSomewhere path = true →
          f.Ends w [.availability] (.ok ⟨path, .installed⟩) s)
        ∧ (∀ s, installer.availability f.toolName (w.host, w.supply) = (.crashed, s) →
          f.Ends w [.availability] (.error .crash) s)
        ∧ ∀ s, installer.Lacks f.toolName (w.host, w.supply) s →
          (∀ reason s', installer.install f.toolName s = (.failed reason, s') →
            f.Ends w [.availability, .installation false]
              (.error (.error (.installFailed f.toolName reason))) s')
          ∧ (∀ path s', installer.install f.toolName s = (.built path, s') →
            s'.1.leadsSomewhere path = false →
            f.Ends w [.availability, .installation false]
              (.error (.error (.missingAfterInstall f.toolName path))) s')
          ∧ (∀ path s', installer.install f.toolName s = (.built path, s') →
            s'.1.leadsSomewhere path = true →
            f.Ends w [.availability, .installation true] (.ok ⟨path, .freshlyInstalled⟩) s')
          ∧ ∀ s', installer.install f.toolName s = (.crashed, s') →
            f.Ends w [.availability, .installation false] (.error .crash) s') := by
  refine ⟨⟨3, Nat.le_refl 3, ?_⟩, fun path hp => NotedSearch.ends (.onSearchPath hp) hc, fun hp =>
    ⟨fun hi => NotedSearch.ends (.unsupplied hp hi) hc, fun installer hi => ⟨?_, ?_, fun s ha =>
      ⟨?_, ?_, ?_, ?_⟩⟩⟩⟩
  · obtain ⟨result, s, hs⟩ := exists_search f (w.host, w.supply)
    rw [iterate_advance (Nat.le_refl 3), outcome, hs.search_eq, find_of_search hc hs]
  · intro path s ha hl
    exact NotedSearch.ends (.installed hp hi ha hl) hc
  · intro s ha
    exact NotedSearch.ends (.unanswered hp hi ha) hc
  · intro reason s' hb
    exact NotedSearch.ends (.failed hp hi ha hb) hc
  · intro path s' hb hl
    exact NotedSearch.ends (.absent hp hi ha hb hl) hc
  · intro path s' hb hl
    exact NotedSearch.ends (.built hp hi ha hb hl) hc
  · intro s' hb
    exact NotedSearch.ends (.crashed hp hi ha hb) hc

end

/-- The installer names a file that is not there, and then makes it. -/
theorem find_first_success_of_supplier :
    let host : Host := ⟨.empty, .existing [], [], []⟩
    let path : Path := ⟨"/opt/patchelf".toList⟩
    let supplier : Session.Supplier := ⟨some path, ⟨"/opt".toList⟩,
      some ⟨"/bin/sh".toList, .keeper⟩, 0, [], false⟩
    let f : Finder Session.Tally := .ofSettings {} (some supplier.installer)
    let w : World Session.Tally := ⟨host, {}, {}⟩
    w.cache.finding? = none ∧ Lookup.find? w.host f.toolName f.searchPath? = none
    ∧ supplier.installer.Lacks f.toolName (w.host, w.supply) (host, ⟨1, 0⟩)
    ∧ (f.find w).1 = .ok ⟨path, .freshlyInstalled⟩
    ∧ (f.find w).2.cache.finding? = some ⟨path, .freshlyInstalled⟩
    ∧ (f.find w).2.supply = ⟨1, 1⟩
    ∧ f.recorded.find (w.recording [])
      = ((f.find w).1, (f.find w).2.recording [.availability, .installation true]) := by
  intro host path supplier f w
  have hc : w.cache.finding? = none := rfl
  have hp : Lookup.find? w.host f.toolName f.searchPath? = none := by decide
  have ha : supplier.installer.Lacks f.toolName (w.host, w.supply) (host, ⟨1, 0⟩) := by
    refine ⟨.installed path, rfl, nofun, ?_⟩
    rintro _ ⟨⟩
    decide
  let made := supplier.installer.install f.toolName (host, ⟨1, 0⟩)
  have hb : made = (.built path, made.2) := Prod.ext (by decide +kernel) rfl
  have htally : made.2.2 = ⟨1, 1⟩ := by decide +kernel
  obtain ⟨-, -, hmissed⟩ := find_first_success f hc
  obtain ⟨-, -, hlacking⟩ := (hmissed hp).2 supplier.installer rfl
  obtain ⟨-, -, hbuilt, -⟩ := hlacking _ ha
  have hends := hbuilt path made.2 hb (by decide +kernel)
  exact ⟨hc, hp, ha, hends.result_eq, hends.kept, hends.supply_eq.trans htally, hends.asked []⟩

end Finder

end Rehome.Tool
