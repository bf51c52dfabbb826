import Rehome.Error
import Rehome.Settings
import Rehome.Tool.Finding
import Rehome.Tool.Installer
import Rehome.Tool.Search

/-!
# Finding the patch tool

A finder first looks into the cache, then on the search path, then asks the installer for an
installed tool, and at last has it install one. What was found goes into the cache; a search that
fails or breaks off leaves it empty.
-/

namespace Rehome

/-- What the search for a tool acts on: the host, the cache, and the state of the installer. -/
structure World (σ : Type) where
  host : Host
  cache : Tool.Cache
  supply : σ

namespace Tool

structure Finder (σ : Type) where
  toolName : Text
  /-- The directories to search, if not those of the host. -/
  searchPath? : Option Text
  installer? : Option (Installer σ)

namespace Finder

variable {σ : Type}

def ofSettings (settings : Settings) (installer? : Option (Installer σ)) : Finder σ :=
  ⟨settings.toolName, settings.searchPath?, installer?⟩

/-- Has the tool installed, and checks that it is where the installer says. -/
def install (f : Finder σ) (installer : Installer σ) (s : Host × σ) :
    Except Fault Finding × (Host × σ) :=
  match installer.install f.toolName s with
  | (.built path, s) =>
    if s.1.leadsSomewhere path then (.ok ⟨path, .freshlyInstalled⟩, s)
    else (.error (.error (.missingAfterInstall f.toolName path)), s)
  | (.failed reason, s) => (.error (.error (.installFailed f.toolName reason)), s)
  | (.crashed, s) => (.error .crash, s)

/-- Asks the installer for the tool: for an installed one first. -/
def askInstaller (f : Finder σ) (installer : Installer σ) (s : Host × σ) :
    Except Fault Finding × (Host × σ) :=
  match installer.availability f.toolName s with
  | (.installed path, s) =>
    if s.1.leadsSomewhere path then (.ok ⟨path, .installed⟩, s) else f.install installer s
  | (.missing, s) => f.install installer s
  | (.crashed, s) => (.error .crash, s)

variable [Lookup]

/-- Searches for the tool without a look into the cache. -/
def search (f : Finder σ) (s : Host × σ) : Except Fault Finding × (Host × σ) :=
  match Lookup.find? s.1 f.toolName f.searchPath? with
  | some path => (.ok ⟨path, .searchPath⟩, s)
  | none =>
    match f.installer? with
    | none => (.error (.error (.toolNotFound f.toolName)), s)
    | some installer => f.askInstaller installer s

omit [Lookup] in
/-- The cache after a search with the given result. -/
def cacheAfter (c : Cache) : Except Fault Finding → Cache
  | .ok finding => c.keep finding
  | .error .crash => c.breakOff
  | .error (.error _) => c

/-- Finds the tool, in the cache if it is there. -/
def find (f : Finder σ) (w : World σ) : Except Fault Finding × World σ :=
  match w.cache.finding? with
  | some finding => (.ok finding, w)
  | none =>
    let (result, host, supply) := f.search (w.host, w.supply)
    (result, ⟨host, cacheAfter w.cache result, supply⟩)

/-- A finder with a full cache changes nothing. -/
theorem find_of_cached {f : Finder σ} {w : World σ} {finding : Finding}
    (h : w.cache.finding? = some finding) : f.find w = (.ok finding, w) := by
  simp [find, h]

/-- A finder with an empty cache fills it with what it finds, and with nothing else. -/
theorem find_of_empty {f : Finder σ} {w : World σ} (h : w.cache.finding? = none) :
    (f.find w).1 = (f.search (w.host, w.supply)).1
      ∧ (f.find w).2.cache.finding? = (f.find w).1.toOption := by
  simp only [find, h, true_and]
  cases (f.search (w.host, w.supply)).1 with
  | ok finding => rfl
  | error fault => cases fault <;> exact h

omit [Lookup]

/-! ## Description -/

/-- A character between quotes: quotes, backslashes and control characters are escaped. -/
def escaped (c : Char) : Text :=
  if c = '"' ∨ c = '\\' then ['\\', c]
  else if c = '\x00' then ['\\', '0']
  else if c = '\t' then ['\\', 't']
  else if c = '\n' then ['\\', 'n']
  else if c = '\r' then ['\\', 'r']
  else if c < ' ' ∨ c = '\x7f' then "\\u\x7b".toList ++ Nat.toDigits 16 c.toNat ++ ['\x7d']
  else [c]

def quoted (text : Text) : String :=
  "\"" ++ String.ofList (text.flatMap escaped) ++ "\""

def Source.describe : Source → String
  | .searchPath => "SearchPath"
  | .installed => "Installed"
  | .freshlyInstalled => "FreshlyInstalled"

def describeFinding (finding : Finding) : String :=
  "ToolHandle \x7b path: " ++ quoted finding.path.text ++ ", provenance: "
    ++ Source.describe finding.source ++ " \x7d"

def describeOption {α : Type} (describe : α → String) : Option α → String
  | some value => "Some(" ++ describe value ++ ")"
  | none => "None"

def describeBool (b : Bool) : String := if b then "true" else "false"

def describeCache (c : Cache) : String :=
  "ToolCache \x7b slot: Mutex \x7b data: " ++ describeOption describeFinding c.finding?
    ++ ", poisoned: " ++ describeBool c.brokenOff ++ ", .. \x7d \x7d"

/-- The finder and its cache, as they are shown to someone who looks for a mistake. -/
def describe (f : Finder σ) (c : Cache) : String :=
  "ToolLocator \x7b tool_name: " ++ quoted f.toolName ++ ", search_path: "
    ++ describeOption quoted f.searchPath? ++ ", installer: "
    ++ describeBool f.installer?.isSome ++ ", cache: " ++ describeCache c ++ " \x7d"

end Finder

end Tool

end Rehome
