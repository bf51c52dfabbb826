import Rehome.Proofs.Tool.Operations

/-!
# One finding in the life of a cache

From its beginning or a reset on, a cache is empty as long as every search for the tool fails, and
the first finding stays in it until the next reset: nobody searches any more, and every finder gives
that finding (`Operation.lifetime`). So there are at most as many installations that leave the tool
as there are resets, and one more (`Operation.one_finding_per_lifetime`).
-/

namespace Rehome

open Tool Session

namespace Operation

variable {σ : Type}

section

variable [Lookup] [Elf.Decoder] [Path.Router Char]

/-- Operations one after the other: their answers, and the world afterwards. -/
def runAll : List (Operation σ) → World σ → List (Except Fault Answer) × World σ
  | [], w => ([], w)
  | op :: ops, w =>
    ((op.run w).1 :: (runAll ops (op.run w).2).1, (runAll ops (op.run w).2).2)

/-- What the searches for the tool come to, of those operations that have a use for it. -/
def resolutions : List (Operation σ) → World σ → List (Except Fault Finding)
  | [], _ => []
  | op :: ops, w => (op.resolution? w).toList ++ resolutions ops (op.run w).2

variable {ops : List (Operation σ)} {w w' : World σ} {finding : Finding}

theorem runAll_append (ops ops' : List (Operation σ)) (w : World σ) :
    (runAll (ops ++ ops') w).2 = (runAll ops' (runAll ops w).2).2 := by
  induction ops generalizing w with
  | nil => rfl
  | cons op ops ih => exact ih (op.run w).2

/-- A finding stays until the next reset, and no search comes to anything else. -/
theorem resolutions_of_cached (hr : ∀ op ∈ ops, op.isReset = false)
    (hc : w.cache.finding? = some finding) :
    (∀ r ∈ resolutions ops w, r = .ok finding)
      ∧ (runAll ops w).2.cache.finding? = some finding := by
  induction ops generalizing w with
  | nil => exact ⟨fun _ hr => absurd hr List.not_mem_nil, hc⟩
  | cons op ops ih =>
    obtain ⟨hop, hops⟩ := List.forall_mem_cons.1 hr
    have hc' : (op.run w).2.cache.finding? = some finding := by
      rw [finding_run hop, hc, Option.some_or]
    obtain ⟨hlater, hlast⟩ := ih hops hc'
    refine ⟨List.forall_mem_append.2 ⟨fun r hmem => ?_, hlater⟩, hlast⟩
    rw [Option.mem_toList] at hmem
    obtain hnone | hsome := op.resolution?_of_cached hc
    · rw [hnone] at hmem
      cases hmem
    · rw [hsome] at hmem
      exact (Option.mem_some_iff.1 hmem).symm

/-- Without a reset, all searches fail and the cache stays empty, or the first one that succeeds
fills it, and all later ones come to the same. -/
theorem lifetime (hr : ∀ op ∈ ops, op.isReset = false) (hc : w.cache.finding? = none) :
    (∃ faults : List Fault, resolutions ops w = faults.map .error
      ∧ (runAll ops w).2.cache.finding? = none)
    ∨ ∃ (faults : List Fault) (finding : Finding) (later : List (Except Fault Finding)),
      resolutions ops w = faults.map .error ++ .ok finding :: later
      ∧ (∀ r ∈ later, r = .ok finding) ∧ (runAll ops w).2.cache.finding? = some finding := by
  induction ops generalizing w with
  | nil => exact .inl ⟨[], rfl, hc⟩
  | cons op ops ih =>
    obtain ⟨hop, hops⟩ := List.forall_mem_cons.1 hr
    have hfinding := finding_run (w := w) hop
    rw [hc, Option.none_or] at hfinding
    rw [resolutions, runAll]
    cases hres : op.resolution? w with
    | none =>
      rw [hres] at hfinding
      exact ih hops hfinding
    | some result =>
      rw [hres] at hfinding
      cases result with
      | error fault =>
        -- the cache is as empty as before, so the rest goes on as from the start
        obtain ⟨faults, hfaults, hlast⟩ | ⟨faults, finding, later, hfaults, hlater, hlast⟩ :=
          ih hops hfinding
        · exact .inl ⟨fault :: faults, by rw [hfaults]; rfl, hlast⟩
        · exact .inr ⟨fault :: faults, finding, later, by rw [hfaults]; rfl, hlater, hlast⟩
      | ok finding =>
        obtain ⟨hlater, hlast⟩ := resolutions_of_cached hops hfinding
        exact .inr ⟨[], finding, _, rfl, hlater, hlast⟩

/-- Operations give the same answers whether a search has broken off before or not. -/
theorem runAll_congr (ops : List (Operation σ)) (hw : w.Alike w') :
    (runAll ops w).1 = (runAll ops w').1 := by
  induction ops generalizing w w' with
  | nil => rfl
  | cons op ops ih =>
    obtain ⟨hanswer, halike⟩ := op.run_congr hw
    rw [runAll, runAll, hanswer, ih halike]

/-- Recorded, operations do what they would do otherwise. Each installation that leaves the tool
fills the cache, so there is a reset between any two of them. -/
theorem runAll_recorded (ops : List (Operation σ)) (w : World σ) (notes : List Inquiry) :
    ∃ noted, runAll (ops.map recorded) (w.recording notes)
        = ((runAll ops w).1, (runAll ops w).2.recording (notes ++ noted))
      ∧ usableInstallations noted + w.filled
        ≤ (runAll ops w).2.filled + ops.countP isReset := by
  induction ops generalizing w notes with
  | nil => exact ⟨[], by rw [List.append_nil]; rfl, Nat.le_of_eq (Nat.zero_add _)⟩
  | cons op ops ih =>
    obtain ⟨noted, hrun, hcount, -⟩ := op.run_recorded w notes
    obtain ⟨noted', hrest, hcount'⟩ := ih (op.run w).2 (notes ++ noted)
    refine ⟨noted ++ noted', ?_, ?_⟩
    · rw [List.map_cons, runAll, hrun, hrest, runAll, List.append_assoc]
    · -- what one operation leaves in the cache is what the next one finds there
      have hreset : (op :: ops).countP isReset = ops.countP isReset + op.isReset.toNat := by
        rw [List.countP_cons]
        cases op.isReset <;> rfl
      have hlast : (runAll (op :: ops) w).2 = (runAll ops (op.run w).2).2 := rfl
      rw [usableInstallations_append, hlast, hreset]
      omega

/-- With a full cache, no installer is asked for anything until the next reset. -/
theorem runAll_recorded_of_cached (hr : ∀ op ∈ ops, op.isReset = false)
    (hc : w.cache.finding? = some finding) (notes : List Inquiry) :
    runAll (ops.map recorded) (w.recording notes)
      = ((runAll ops w).1, (runAll ops w).2.recording notes) := by
  induction ops generalizing w with
  | nil => rfl
  | cons op ops ih =>
    obtain ⟨hop, hops⟩ := List.forall_mem_cons.1 hr
    obtain ⟨noted, hrun, -, hnone⟩ := op.run_recorded w notes
    obtain rfl : noted = [] := hnone (by rw [hc]; rfl)
    have hc' : (op.run w).2.cache.finding? = some finding := by
      rw [finding_run hop, hc, Option.some_or]
    rw [List.append_nil] at hrun
    rw [List.map_cons, runAll, hrun, ih hops hc', runAll]

/-- A cache that has just been reset, or never used, is empty. -/
theorem cache_of_start {pre : List (Operation σ)} (hpre : pre = [] ∨ pre.getLast? = some .reset)
    (hc : w.cache.finding? = none) : (runAll pre w).2.cache.finding? = none := by
  obtain rfl | hlast := hpre
  · exact hc
  · obtain ⟨ops, rfl⟩ := List.getLast?_eq_some_iff.1 hlast
    rw [runAll_append]
    rfl

/-- Any operations of any workshops with one cache that is empty at first. Recorded, they do the
same, and there is at most one installation that leaves the tool for each reset, and one more. From
the beginning or a reset on, up to any point before the next reset, there are two cases:
* all searches have failed; the cache is empty, and everything goes on as with a new cache;
* there is a first finding, which is in the cache; every later search has come to that, and any
  finder gives it whatever has become of the world otherwise; and until the next reset, no installer
  is asked for anything. -/
theorem one_finding_per_lifetime (host : Host) (supply : σ) :
    let start : World σ := ⟨host, {}, supply⟩
    (∀ ops : List (Operation σ), ∃ notes,
      runAll (ops.map recorded) (start.recording [])
        = ((runAll ops start).1, (runAll ops start).2.recording notes)
      ∧ usableInstallations notes ≤ ops.countP isReset + 1)
    ∧ ∀ pre stretch : List (Operation σ), (pre = [] ∨ pre.getLast? = some .reset) →
      (∀ op ∈ stretch, op.isReset = false) →
      let begun := (runAll pre start).2
      let w := (runAll stretch begun).2
      (∃ faults : List Fault, resolutions stretch begun = faults.map .error
        ∧ w.cache.finding? = none
        ∧ ∀ more, (runAll more w).1 = (runAll more { w with cache := {} }).1)
      ∨ ∃ (faults : List Fault) (finding : Finding) (later : List (Except Fault Finding)),
        resolutions stretch begun = faults.map .error ++ .ok finding :: later
        ∧ (∀ r ∈ later, r = .ok finding)
        ∧ (cached.run w).1 = .ok (.cached (some finding))
        ∧ (∀ (f : Finder σ) (w' : World σ), w'.cache = w.cache → f.find w' = (.ok finding, w'))
        ∧ ∀ more, (∀ op ∈ more, op.isReset = false) → ∀ notes,
          runAll (more.map recorded) (w.recording notes)
            = ((runAll more w).1, (runAll more w).2.recording notes) := by
  intro start
  refine ⟨fun ops => ?_, fun pre stretch hpre hr => ?_⟩
  · obtain ⟨noted, hrun, hcount⟩ := runAll_recorded ops start []
    refine ⟨noted, hrun, ?_⟩
    have hstart : start.filled = 0 := rfl
    have hfilled : (runAll ops start).2.filled ≤ 1 := Bool.toNat_le _
    omega
  · intro begun w
    have hbegun : begun.cache.finding? = none := cache_of_start hpre rfl
    obtain ⟨faults, hfaults, hc⟩ | ⟨faults, finding, later, hfaults, hlater, hc⟩ :=
      lifetime hr hbegun
    · exact .inl ⟨faults, hfaults, hc, fun more => runAll_congr more ⟨rfl, hc, rfl⟩⟩
    · refine .inr ⟨faults, finding, later, hfaults, hlater, congrArg (Except.ok ∘ Answer.cached) hc,
        fun f w' hw => ?_, fun more hmore => runAll_recorded_of_cached hmore hc⟩
      rw [← hw] at hc
      exact Finder.find_of_cached hc

end

/-- A supplier that fails once. The second search has the tool installed, and what it finds is what
every later one comes to, though the tool is removed; only after a reset it is installed again. -/
theorem one_finding_per_lifetime_of_supplier :
    let host : Host := ⟨.empty, .existing [], [], []⟩
    let supplier : Supplier := ⟨none, ⟨"/opt".toList⟩, some ⟨"/bin/sh".toList, .keeper⟩, 1,
      "no network".toList, false⟩
    let k : Workshop Tally := ⟨{}, some supplier.installer, Host.launch⟩
    let start : World Tally := ⟨host, {}, {}⟩
    let find : Operation Tally := .work k .findTool
    let clear : Operation Tally := .change fun s => (host, s.2)
    let stretch := [find, find, clear, .work k (.read ⟨"/lib/a.so".toList⟩)]
    let all := stretch ++ [.reset, find]
    let w := (runAll stretch start).2
    let finding : Finding := ⟨⟨"/opt/patchelf".toList⟩, .freshlyInstalled⟩
    let failed : Fault := .error (.installFailed "patchelf".toList "no network".toList)
    (∀ op ∈ stretch, op.isReset = false)
    ∧ resolutions stretch start = [.error failed, .ok finding, .ok finding]
    ∧ (∀ (f : Finder Tally) (w' : World Tally), w'.cache = w.cache → f.find w' = (.ok finding, w'))
    ∧ all.countP isReset = 1
    ∧ ∃ notes, runAll (all.map recorded) (start.recording [])
        = ((runAll all start).1, (runAll all start).2.recording notes)
      ∧ usableInstallations notes = 2 := by
  intro host supplier k start find clear stretch all w finding failed
  obtain ⟨hall, hstretch⟩ := one_finding_per_lifetime host ({} : Tally)
  have hkept : ∀ (ops : List (Operation Tally)) (finding : Finding),
      (∀ op ∈ ops, op.isReset = false) → (runAll ops start).2.cache.finding? = some finding →
      ∀ (f : Finder Tally) (w' : World Tally), w'.cache = (runAll ops start).2.cache →
        f.find w' = (.ok finding, w') := by
    intro ops finding hr hc
    obtain ⟨-, -, hnone, -⟩ | ⟨-, finding', -, -, -, hcached, hfind, -⟩ :=
      hstretch [] ops (.inl rfl) hr
    · cases hc.symm.trans hnone
    · cases (congrArg (Except.ok ∘ Answer.cached) hc).symm.trans hcached
      exact hfind
  have hr : ∀ op ∈ stretch, op.isReset = false := by decide
  refine ⟨hr, by decide +kernel, hkept stretch finding hr (by decide +kernel), rfl, ?_⟩
  · obtain ⟨notes, hrun, -⟩ := hall all
    refine ⟨notes, hrun, ?_⟩
    have hnotes : (runAll (all.map recorded) (start.recording [])).2.supply.2 = notes := by
      rw [hrun]
      rfl
    rw [← hnotes]
    decide +kernel

end Operation

end Rehome
