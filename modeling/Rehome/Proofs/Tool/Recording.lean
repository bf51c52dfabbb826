import Rehome.Tool.Finder

/-!
# Finders on record

`Search` says all that can come of a search for the tool. `Installer.recorded` notes what an
installer is asked for, and changes nothing else: a finder with it finds what it would find
otherwise (`NotedSearch`). Nothing is asked for if the cache is full, and an installation that
leaves the tool fills it (`Finder.find_recorded`).
-/

namespace Rehome

open Tool

variable {σ : Type}

namespace Tool

/-! ## All that can come of a search -/

/-- An installer does not know of an installed tool, or only of one that is no longer there. -/
def Installer.Lacks (installer : Installer σ) (tool : Text) (s s' : Host × σ) : Prop :=
  ∃ answer, installer.availability tool s = (answer, s') ∧ answer ≠ .crashed
    ∧ ∀ path, answer = .installed path → s'.1.leadsSomewhere path = false

namespace Finder

variable {f : Finder σ} {s s' : Host × σ} {result : Except Fault Finding}

/-- An installer that lacks the tool is asked to install it. -/
theorem askInstaller_of_lacks {installer : Installer σ}
    (ha : installer.Lacks f.toolName s s') :
    f.askInstaller installer s = f.install installer s' := by
  obtain ⟨answer, ha, hc, hl⟩ := ha
  cases answer with
  | installed path => simp [askInstaller, ha, hl path rfl]
  | missing => simp [askInstaller, ha]
  | crashed => exact absurd rfl hc

variable [Lookup]

/-- What can come of a search with an empty cache. -/
inductive Search (f : Finder σ) (s : Host × σ) : Except Fault Finding → Host × σ → Prop where
  | onSearchPath {path : Path} (hp : Lookup.find? s.1 f.toolName f.searchPath? = some path) :
    Search f s (.ok ⟨path, .searchPath⟩) s
  | unsupplied (hp : Lookup.find? s.1 f.toolName f.searchPath? = none) (hi : f.installer? = none) :
    Search f s (.error (.error (.toolNotFound f.toolName))) s
  | installed {installer : Installer σ} {path : Path} {s' : Host × σ}
    (hp : Lookup.find? s.1 f.toolName f.searchPath? = none) (hi : f.installer? = some installer)
    (ha : installer.availability f.toolName s = (.installed path, s'))
    (hl : s'.1.leadsSomewhere path = true) : Search f s (.ok ⟨path, .installed⟩) s'
  /-- The installer breaks off before it has said whether the tool is installed. -/
  | unanswered {installer : Installer σ} {s' : Host × σ}
    (hp : Lookup.find? s.1 f.toolName f.searchPath? = none) (hi : f.installer? = some installer)
    (ha : installer.availability f.toolName s = (.crashed, s')) : Search f s (.error .crash) s'
  | built {installer : Installer σ} {path : Path} {s' s'' : Host × σ}
    (hp : Lookup.find? s.1 f.toolName f.searchPath? = none) (hi : f.installer? = some installer)
    (ha : installer.Lacks f.toolName s s')
    (hb : installer.install f.toolName s' = (.built path, s''))
    (hl : s''.1.leadsSomewhere path = true) : Search f s (.ok ⟨path, .freshlyInstalled⟩) s''
  /-- The tool is not where the installer says. -/
  | absent {installer : Installer σ} {path : Path} {s' s'' : Host × σ}
    (hp : Lookup.find? s.1 f.toolName f.searchPath? = none) (hi : f.installer? = some installer)
    (ha : installer.Lacks f.toolName s s')
    (hb : installer.install f.toolName s' = (.built path, s''))
    (hl : s''.1.leadsSomewhere path = false) :
    Search f s (.error (.error (.missingAfterInstall f.toolName path))) s''
  | failed {installer : Installer σ} {reason : Text} {s' s'' : Host × σ}
    (hp : Lookup.find? s.1 f.toolName f.searchPath? = none) (hi : f.installer? = some installer)
    (ha : installer.Lacks f.toolName s s')
    (hb : installer.install f.toolName s' = (.failed reason, s'')) :
    Search f s (.error (.error (.installFailed f.toolName reason))) s''
  | crashed {installer : Installer σ} {s' s'' : Host × σ}
    (hp : Lookup.find? s.1 f.toolName f.searchPath? = none) (hi : f.installer? = some installer)
    (ha : installer.Lacks f.toolName s s')
    (hb : installer.install f.toolName s' = (.crashed, s'')) : Search f s (.error .crash) s''

theorem Search.search_eq (hs : Search f s result s') : f.search s = (result, s') := by
  cases hs with
  | onSearchPath hp => simp [search, hp]
  | unsupplied hp hi => simp [search, hp, hi]
  | installed hp hi ha hl => simp [search, hp, hi, askInstaller, ha, hl]
  | unanswered hp hi ha => simp [search, hp, hi, askInstaller, ha]
  | built hp hi ha hb hl => simp [search, hp, hi, askInstaller_of_lacks ha, install, hb, hl]
  | absent hp hi ha hb hl => simp [search, hp, hi, askInstaller_of_lacks ha, install, hb, hl]
  | failed hp hi ha hb => simp [search, hp, hi, askInstaller_of_lacks ha, install, hb]
  | crashed hp hi ha hb => simp [search, hp, hi, askInstaller_of_lacks ha, install, hb]

/-- An installer that lacks the tool is asked to install it, and that ends somehow. -/
theorem exists_search_of_lacks {installer : Installer σ}
    (hp : Lookup.find? s.1 f.toolName f.searchPath? = none) (hi : f.installer? = some installer)
    (ha : installer.Lacks f.toolName s s') : ∃ result s'', Search f s result s'' := by
  cases hb : installer.install f.toolName s' with
  | mk result s'' =>
    cases result with
    | built path =>
      cases hl : s''.1.leadsSomewhere path with
      | true => exact ⟨_, _, .built hp hi ha hb hl⟩
      | false => exact ⟨_, _, .absent hp hi ha hb hl⟩
    | failed reason => exact ⟨_, _, .failed hp hi ha hb⟩
    | crashed => exact ⟨_, _, .crashed hp hi ha hb⟩

theorem exists_search (f : Finder σ) (s : Host × σ) : ∃ result s', Search f s result s' := by
  cases hp : Lookup.find? s.1 f.toolName f.searchPath? with
  | some path => exact ⟨_, _, .onSearchPath hp⟩
  | none =>
    cases hi : f.installer? with
    | none => exact ⟨_, _, .unsupplied hp hi⟩
    | some installer =>
      cases ha : installer.availability f.toolName s with
      | mk answer s' =>
        cases answer with
        | installed path =>
          cases hl : s'.1.leadsSomewhere path with
          | true => exact ⟨_, _, .installed hp hi ha hl⟩
          | false => exact exists_search_of_lacks hp hi ⟨_, ha, nofun, by rintro _ ⟨⟩; exact hl⟩
        | missing => exact exists_search_of_lacks hp hi ⟨_, ha, nofun, nofun⟩
        | crashed => exact ⟨_, _, .unanswered hp hi ha⟩

end Finder

/-! ## Notes -/

/-- What an installer is asked for. -/
inductive Inquiry where
  | availability
  /-- An installation, and whether it leaves the tool where the installer says. -/
  | installation (usable : Bool)
  deriving DecidableEq, Repr

/-- How many installations have left the tool. -/
def usableInstallations (notes : List Inquiry) : Nat := notes.count (.installation true)

theorem usableInstallations_nil : usableInstallations [] = 0 := rfl

theorem usableInstallations_append (notes noted : List Inquiry) :
    usableInstallations (notes ++ noted)
      = usableInstallations notes + usableInstallations noted := List.count_append

def Installation.isUsable (h : Host) : Installation → Bool
  | .built path => h.leadsSomewhere path
  | .failed _ | .crashed => false

/-- The host and the state of an installer, with notes beside. -/
def withNotes (s : Host × σ) (notes : List Inquiry) : Host × (σ × List Inquiry) :=
  (s.1, s.2, notes)

namespace Installer

/-- The installer that also notes what it is asked for. -/
def recorded (installer : Installer σ) : Installer (σ × List Inquiry) where
  availability tool s :=
    let (answer, s') := installer.availability tool (s.1, s.2.1)
    (answer, withNotes s' (s.2.2 ++ [.availability]))
  install tool s :=
    let (result, s') := installer.install tool (s.1, s.2.1)
    (result, withNotes s' (s.2.2 ++ [.installation (result.isUsable s'.1)]))

variable {installer : Installer σ} {tool : Text} {s s' : Host × σ}

theorem availability_recorded {answer : Availability}
    (ha : installer.availability tool s = (answer, s')) (notes : List Inquiry) :
    installer.recorded.availability tool (withNotes s notes)
      = (answer, withNotes s' (notes ++ [.availability])) := by
  simp only [recorded, withNotes, ha]

theorem Lacks.recorded (ha : installer.Lacks tool s s') (notes : List Inquiry) :
    installer.recorded.Lacks tool (withNotes s notes)
      (withNotes s' (notes ++ [.availability])) := by
  obtain ⟨answer, ha, hc, hl⟩ := ha
  exact ⟨answer, availability_recorded ha notes, hc, hl⟩

theorem install_recorded {result : Installation}
    (hb : installer.install tool s = (result, s')) (notes : List Inquiry) :
    installer.recorded.install tool (withNotes s (notes ++ [.availability]))
      = (result, withNotes s'
        (notes ++ [.availability, .installation (result.isUsable s'.1)])) := by
  simp [recorded, withNotes, hb]

end Installer

namespace Finder

def recorded (f : Finder σ) : Finder (σ × List Inquiry) :=
  ⟨f.toolName, f.searchPath?, f.installer?.map Installer.recorded⟩

variable {f : Finder σ} {s s' : Host × σ} {result : Except Fault Finding}

theorem installer?_recorded {installer : Installer σ} (hi : f.installer? = some installer) :
    f.recorded.installer? = some installer.recorded := by
  simp [Finder.recorded, hi]

theorem installer?_recorded_of_none (hi : f.installer? = none) : f.recorded.installer? = none := by
  simp [Finder.recorded, hi]

variable [Lookup]

/-- What can come of a search in which the installer is asked for what is noted, and for nothing
else. -/
structure NotedSearch (f : Finder σ) (s : Host × σ) (noted : List Inquiry)
    (result : Except Fault Finding) (s' : Host × σ) : Prop where
  search : Search f s result s'
  recorded : ∀ notes,
    Search f.recorded (withNotes s notes) result (withNotes s' (notes ++ noted))

namespace NotedSearch

theorem onSearchPath {path : Path} (hp : Lookup.find? s.1 f.toolName f.searchPath? = some path) :
    NotedSearch f s [] (.ok ⟨path, .searchPath⟩) s := by
  refine ⟨.onSearchPath hp, fun notes => ?_⟩
  rw [List.append_nil]
  exact .onSearchPath hp

section

variable {installer : Installer σ} {path : Path} {s'' : Host × σ}
  (hp : Lookup.find? s.1 f.toolName f.searchPath? = none)

include hp

theorem unsupplied (hi : f.installer? = none) :
    NotedSearch f s [] (.error (.error (.toolNotFound f.toolName))) s := by
  refine ⟨.unsupplied hp hi, fun notes => ?_⟩
  rw [List.append_nil]
  exact .unsupplied hp (installer?_recorded_of_none hi)

variable (hi : f.installer? = some installer)

include hi

theorem installed (ha : installer.availability f.toolName s = (.installed path, s'))
    (hl : s'.1.leadsSomewhere path = true) :
    NotedSearch f s [.availability] (.ok ⟨path, .installed⟩) s' where
  search := .installed hp hi ha hl
  recorded notes :=
    .installed hp (installer?_recorded hi) (Installer.availability_recorded ha notes) hl

theorem unanswered (ha : installer.availability f.toolName s = (.crashed, s')) :
    NotedSearch f s [.availability] (.error .crash) s' where
  search := .unanswered hp hi ha
  recorded notes :=
    .unanswered hp (installer?_recorded hi) (Installer.availability_recorded ha notes)

variable (ha : installer.Lacks f.toolName s s')

include ha

theorem built (hb : installer.install f.toolName s' = (.built path, s''))
    (hl : s''.1.leadsSomewhere path = true) :
    NotedSearch f s [.availability, .installation true] (.ok ⟨path, .freshlyInstalled⟩) s'' := by
  have hb' := Installer.install_recorded hb
  rw [Installation.isUsable, hl] at hb'
  exact ⟨.built hp hi ha hb hl, fun notes =>
    .built hp (installer?_recorded hi) (ha.recorded notes) (hb' notes) hl⟩

theorem absent (hb : installer.install f.toolName s' = (.built path, s''))
    (hl : s''.1.leadsSomewhere path = false) :
    NotedSearch f s [.availability, .installation false]
      (.error (.error (.missingAfterInstall f.toolName path))) s'' := by
  have hb' := Installer.install_recorded hb
  rw [Installation.isUsable, hl] at hb'
  exact ⟨.absent hp hi ha hb hl, fun notes =>
    .absent hp (installer?_recorded hi) (ha.recorded notes) (hb' notes) hl⟩

theorem failed {reason : Text} (hb : installer.install f.toolName s' = (.failed reason, s'')) :
    NotedSearch f s [.availability, .installation false]
      (.error (.error (.installFailed f.toolName reason))) s'' where
  search := .failed hp hi ha hb
  recorded notes :=
    .failed hp (installer?_recorded hi) (ha.recorded notes) (Installer.install_recorded hb notes)

theorem crashed (hb : installer.install f.toolName s' = (.crashed, s'')) :
    NotedSearch f s [.availability, .installation false] (.error .crash) s'' where
  search := .crashed hp hi ha hb
  recorded notes :=
    .crashed hp (installer?_recorded hi) (ha.recorded notes) (Installer.install_recorded hb notes)

end

end NotedSearch

/-- There is an installation on record that leaves the tool only if it is found. -/
theorem Search.exists_noted (hs : Search f s result s') :
    ∃ noted, NotedSearch f s noted result s'
      ∧ usableInstallations noted ≤ result.isOk.toNat := by
  cases hs with
  | onSearchPath hp => exact ⟨_, .onSearchPath hp, Nat.zero_le _⟩
  | unsupplied hp hi => exact ⟨_, .unsupplied hp hi, Nat.zero_le _⟩
  | installed hp hi ha hl => exact ⟨_, .installed hp hi ha hl, Nat.zero_le _⟩
  | unanswered hp hi ha => exact ⟨_, .unanswered hp hi ha, Nat.zero_le _⟩
  | built hp hi ha hb hl => exact ⟨_, .built hp hi ha hb hl, Nat.le_refl 1⟩
  | absent hp hi ha hb hl => exact ⟨_, .absent hp hi ha hb hl, Nat.le_refl 0⟩
  | failed hp hi ha hb => exact ⟨_, .failed hp hi ha hb, Nat.zero_le _⟩
  | crashed hp hi ha hb => exact ⟨_, .crashed hp hi ha hb, Nat.zero_le _⟩

end Finder

end Tool

/-! ## Finding -/

namespace World

/-- The world in which notes are taken besides. -/
def recording (w : World σ) (notes : List Inquiry) : World (σ × List Inquiry) :=
  ⟨w.host, w.cache, w.supply, notes⟩

/-- One if the cache is full, and zero otherwise. -/
def filled (w : World σ) : Nat := w.cache.finding?.isSome.toNat

end World

namespace Tool.Finder

variable {f : Finder σ} {w : World σ}

theorem filled_cacheAfter (hc : w.cache.finding? = none) (host : Host)
    (result : Except Fault Finding) (supply : σ) :
    (World.mk host (cacheAfter w.cache result) supply).filled = result.isOk.toNat := by
  cases result with
  | ok finding => rfl
  | error fault => cases fault <;> simp [World.filled, cacheAfter, Cache.breakOff, hc] <;> rfl

variable [Lookup]

/-- With an empty cache a finder searches, and keeps what it finds. -/
theorem find_of_search {result : Except Fault Finding} {s' : Host × σ}
    (hc : w.cache.finding? = none) (hs : Search f (w.host, w.supply) result s') :
    f.find w = (result, ⟨s'.1, cacheAfter w.cache result, s'.2⟩) := by
  simp only [find, hc, hs.search_eq]

/-- Recorded, a finder finds what it would find otherwise. It asks for nothing if the cache is full,
and if the cache is empty, it asks for no more than one installation that leaves the tool, and then
the cache is full. -/
theorem find_recorded (f : Finder σ) (w : World σ) (notes : List Inquiry) :
    ∃ noted, f.recorded.find (w.recording notes)
        = ((f.find w).1, (f.find w).2.recording (notes ++ noted))
      ∧ usableInstallations noted + w.filled ≤ (f.find w).2.filled
      ∧ (w.cache.finding?.isSome → noted = []) := by
  cases hc : w.cache.finding? with
  | some finding =>
    have hc' : (w.recording notes).cache.finding? = some finding := hc
    refine ⟨[], ?_, ?_, fun _ => rfl⟩
    · rw [List.append_nil, find_of_cached hc, find_of_cached hc']
    · rw [find_of_cached hc]
      exact Nat.le_of_eq (Nat.zero_add _)
  | none =>
    obtain ⟨result, s', hs⟩ := exists_search f (w.host, w.supply)
    obtain ⟨noted, hnoted, hcount⟩ := hs.exists_noted
    have hc' : (w.recording notes).cache.finding? = none := hc
    refine ⟨noted, ?_, ?_, nofun⟩
    · rw [find_of_search hc hs, find_of_search hc' (hnoted.recorded notes)]
      rfl
    · rw [find_of_search hc hs, filled_cacheAfter hc]
      simpa [World.filled, hc] using hcount

end Tool.Finder

end Rehome
