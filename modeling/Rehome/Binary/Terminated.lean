import Rehome.Text.Utf8

/-!
# Replacing inside NUL-terminated strings

A text inside a binary can be replaced only if no byte behind it moves. `replaceStrings?` looks for
the old text, takes everything from there to the next NUL as one string, replaces the old text in it
and fills the string up with NULs to the length it had. Strings that no NUL ends are left alone.
-/

namespace Rehome.Binary

/-- What comes before and after the first occurrence of `old`. -/
def cut? (old : Bytes) : Bytes → Option (Bytes × Bytes)
  | [] => if old = [] then some ([], []) else none
  | b :: bytes =>
    if old.isPrefixOf (b :: bytes) then some ([], (b :: bytes).drop old.length)
    else (cut? old bytes).map fun parts => (b :: parts.1, parts.2)

/-- Replaces `old` by `new` wherever it occurs, from left to right, after leaving out the first
`skip` bytes. -/
def replaceAfter (old new : Bytes) : (skip : Nat) → Bytes → Bytes
  | _, [] => []
  | skip + 1, _ :: bytes => replaceAfter old new skip bytes
  | 0, b :: bytes =>
    if old.isPrefixOf (b :: bytes) then new ++ replaceAfter old new (old.length - 1) bytes
    else b :: replaceAfter old new 0 bytes

def replaceAll (old new data : Bytes) : Bytes :=
  replaceAfter old new 0 data

def padTo (length : Nat) (bytes : Bytes) : Bytes :=
  bytes ++ List.replicate (length - bytes.length) 0

/-- Data around the first occurrence of a text that a NUL follows. -/
structure Occurrence where
  before : Bytes
  /-- From the occurrence up to the NUL. -/
  string : Bytes
  /-- From the NUL on. -/
  rest : Bytes
  deriving DecidableEq, Repr

/-- The first occurrence of `old`, if a NUL follows it. -/
def occurrence? (old data : Bytes) : Option Occurrence :=
  match cut? old data with
  | none => none
  | some (before, behind) =>
    match behind.dropWhile (· ≠ 0) with
    | [] => none
    | nul :: rest => some ⟨before, old ++ behind.takeWhile (· ≠ 0), nul :: rest⟩

theorem eq_append_of_cut? {old data before behind : Bytes}
    (h : cut? old data = some (before, behind)) : data = before ++ (old ++ behind) := by
  induction data generalizing before behind with
  | nil =>
    by_cases ho : old = []
    · simp_all [cut?]
    · simp [cut?, ho] at h
  | cons b bytes ih =>
    unfold cut? at h
    split at h
    · rename_i hr
      simp only [Option.some.injEq, Prod.mk.injEq] at h
      obtain ⟨rfl, rfl⟩ := h
      exact (List.prefix_iff_eq_append.1 (List.isPrefixOf_iff_prefix.1 hr)).symm
    · obtain ⟨⟨x, y⟩, hxy, e⟩ := Option.map_eq_some_iff.1 h
      simp only [Prod.mk.injEq] at e
      obtain ⟨rfl, rfl⟩ := e
      simp [ih hxy]

/-- An occurrence and what surrounds it make up the data. -/
theorem Occurrence.append_eq {old data : Bytes} {o : Occurrence}
    (h : occurrence? old data = some o) : data = o.before ++ (o.string ++ o.rest) := by
  unfold occurrence? at h
  split at h
  · cases h
  · rename_i before behind hc
    split at h
    · cases h
    · rename_i nul rest hd
      cases h
      rw [eq_append_of_cut? hc]
      simp only [List.append_assoc, ← hd, List.takeWhile_append_dropWhile]

theorem Occurrence.le_length_string {old data : Bytes} {o : Occurrence}
    (h : occurrence? old data = some o) : old.length ≤ o.string.length := by
  unfold occurrence? at h
  split at h
  · cases h
  · split at h
    · cases h
    · cases h
      simp

theorem Occurrence.length_rest_lt {old data : Bytes} {o : Occurrence} (hold : old ≠ [])
    (h : occurrence? old data = some o) : o.rest.length < data.length := by
  have := congrArg List.length (append_eq h)
  have := le_length_string h
  have := List.length_pos_iff.2 hold
  simp only [List.length_append] at *
  omega

/-- The data with `old` replaced by `new` in its NUL-terminated strings, if it occurs there. -/
def replaceStrings? (old new data : Bytes) : Option Bytes :=
  if hold : old = [] then none
  else
    match h : occurrence? old data with
    | none => none
    | some o =>
      have := Occurrence.length_rest_lt hold h
      some (o.before ++ padTo o.string.length (replaceAll old new o.string)
        ++ (replaceStrings? old new o.rest).getD o.rest)
  termination_by data.length

/-- What a replacement inside a binary comes to. -/
inductive Replacement where
  /-- The old text does not occur, or not in a terminated string. -/
  | unchanged
  | tooLong
  | replaced (data : Bytes)
  deriving DecidableEq, Repr

/-- Replaces `old` by `new` in the data of a binary. -/
def replace (old new data : Bytes) : Replacement :=
  if (cut? old data).isNone then .unchanged
  else if old.length < new.length then .tooLong
  else
    match replaceStrings? old new data with
    | some result => .replaced result
    | none => .unchanged

end Rehome.Binary
