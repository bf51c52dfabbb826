import Rehome.Path.Basic

/-!
# Errors

What an operation can be refused for, by cause, with the wording of each cause. A `Fault` is what
an operation without a result ended with: an error that it reports, or a crash.
-/

namespace Rehome

namespace Path

def toString (p : Path) : String := String.ofList p.text

end Path

inductive Error where
  | doesNotExist (path : Path)
  | notAbsolute (path : Path)
  | io (cause : Text)
  | unreadable (path : Path) (cause : Text)
  | unsupported (what : Text)
  | invalidRequest (reason : Text)
  | prefixTooLong (path : Path) (old new : Text)
  /-- The patch tool is not there, and nobody could install it. -/
  | toolNotFound (tool : Text)
  | installFailed (tool reason : Text)
  /-- The patch tool is not where the installer says. -/
  | missingAfterInstall (tool : Text) (path : Path)
  deriving DecidableEq, Repr

def Error.message : Error → String
  | doesNotExist path => path.toString ++ " does not exist"
  | notAbsolute path => path.toString ++ " is not an absolute path"
  | io cause => "IO error: " ++ String.ofList cause
  | unreadable path cause => "Cannot read " ++ path.toString ++ ": " ++ String.ofList cause
  | unsupported what => "Not supported: " ++ String.ofList what
  | invalidRequest reason => "Invalid relocation request: " ++ String.ofList reason
  | prefixTooLong path old new =>
    "Cannot replace " ++ String.ofList old ++ " with " ++ String.ofList new ++ " in "
      ++ path.toString ++ ": the new prefix is longer than the old one"
  | toolNotFound tool =>
    "Patch tool error: " ++ String.ofList tool
      ++ " was not found on the search path and no installer is available"
  | installFailed tool reason =>
    "Patch tool error: Failed to install " ++ String.ofList tool ++ ": " ++ String.ofList reason
  | missingAfterInstall tool path =>
    "Patch tool error: " ++ String.ofList tool ++ " was installed but " ++ path.toString
      ++ " does not exist"

/-- How an operation ended that has no result. -/
inductive Fault where
  | error (error : Error)
  /-- It broke off in the middle. -/
  | crash
  deriving DecidableEq, Repr

instance decidableEqExcept {ε α : Type} [DecidableEq ε] [DecidableEq α] :
    DecidableEq (Except ε α)
  | .ok a, .ok b => decidable_of_iff (a = b) ⟨congrArg _, Except.ok.inj⟩
  | .error d, .error e => decidable_of_iff (d = e) ⟨congrArg _, Except.error.inj⟩
  | .ok _, .error _ => isFalse nofun
  | .error _, .ok _ => isFalse nofun

instance decidableExistsOk {ε α : Type} : (result : Except ε α) → Decidable (∃ a, result = .ok a)
  | .ok a => isTrue ⟨a, rfl⟩
  | .error _ => isFalse fun ⟨_, h⟩ => nomatch h

/-- The result of an operation that breaks off for no other reason than an error. -/
def reported {α : Type} : Except Error α → Except Fault α
  | .ok value => .ok value
  | .error error => .error (.error error)

end Rehome
