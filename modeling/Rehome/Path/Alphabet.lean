import Rehome.Text.Reading

/-!
# Letters of paths

The system gives a path as bytes, which need not be UTF-8. Where all paths are known to be texts,
characters do as well. `Alphabet` is what the two have in common: slashes and dots, the letters of a
text, and the text that letters read as. What has no reading as text reads as U+FFFD, but a slash or
a dot is read just where there is one.
-/

namespace Rehome

/-- What paths can be written with. -/
class Alphabet (α : Type) where
  slash : α
  dot : α
  /-- The letters of a text. -/
  ofText : Text → List α
  /-- What letters read as, whether or not they are those of a text. -/
  toText : List α → Text
  ofText_append (text text' : Text) : ofText (text ++ text') = ofText text ++ ofText text'
  ofText_slash : ofText ['/'] = [slash]
  ofText_dot : ofText ['.'] = [dot]
  toText_ofText (text : Text) : toText (ofText text) = text
  /-- What is in front of a slash and what is behind it are read apart. -/
  toText_append_slash (front back : List α) :
    toText (front ++ slash :: back) = toText front ++ '/' :: toText back
  slash_mem {letters : List α} : '/' ∈ toText letters → slash ∈ letters
  eq_dots {letters : List α} {count : Nat} :
    toText letters = List.replicate count '.' → letters = List.replicate count dot

namespace Alphabet

/-- Letters that are characters read as they are. -/
instance : Alphabet Char where
  slash := '/'
  dot := '.'
  ofText text := text
  toText letters := letters
  ofText_append _ _ := rfl
  ofText_slash := rfl
  ofText_dot := rfl
  toText_ofText _ := rfl
  toText_append_slash _ _ := rfl
  slash_mem := id
  eq_dots := id

theorem eq_dots_of_ofUtf8 {bytes : Bytes} {count : Nat}
    (h : Text.ofUtf8 bytes = List.replicate count '.') : bytes = List.replicate count 0x2E := by
  induction count generalizing bytes with
  | zero =>
    cases bytes with
    | nil => rfl
    | cons b bytes => cases h
  | succ count ih =>
    obtain ⟨rest, rfl, hrest⟩ := Text.eq_cons_of_ofUtf8 (by decide) (by decide) h
    rw [ih hrest]
    rfl

/-- The bytes of a path, read as UTF-8. -/
instance : Alphabet UInt8 where
  slash := 0x2F
  dot := 0x2E
  ofText := Text.utf8
  toText := Text.ofUtf8
  ofText_append := Text.utf8_append
  ofText_slash := by decide
  ofText_dot := by decide
  toText_ofText := Text.ofUtf8_utf8
  toText_append_slash := Text.ofUtf8_append_cons (by decide)
  slash_mem h := Text.mem_of_mem_ofUtf8After (by decide) (by decide) h
  eq_dots := eq_dots_of_ofUtf8

@[simp] theorem slash_char : (slash : Char) = '/' := rfl

@[simp] theorem dot_char : (dot : Char) = '.' := rfl

@[simp] theorem ofText_char (text : Text) : (ofText text : List Char) = text := rfl

@[simp] theorem toText_char (letters : List Char) : toText letters = letters := rfl

attribute [simp] toText_ofText

variable {α : Type} [Alphabet α] {text text' : Text} {letters : List α}

@[simp] theorem ofText_nil : ofText (α := α) [] = [] := by
  have h := ofText_append (α := α) [] []
  simpa using h

@[simp] theorem toText_nil : toText ([] : List α) = [] := by
  rw [← ofText_nil, toText_ofText]

theorem ofText_cons_slash (text : Text) : ofText (α := α) ('/' :: text) = slash :: ofText text := by
  rw [← List.singleton_append, ofText_append, ofText_slash]
  rfl

theorem ofText_dots : ofText (α := α) ['.', '.'] = [dot, dot] := by
  rw [← List.singleton_append, ofText_append, ofText_dot]
  rfl

theorem toText_cons_slash (letters : List α) :
    toText (slash :: letters) = '/' :: toText letters := by
  have h := toText_append_slash [] letters
  simpa using h

theorem ofText_injective : Function.Injective (ofText (α := α)) :=
  Function.LeftInverse.injective toText_ofText

theorem ofText_eq_nil_iff : ofText (α := α) text = [] ↔ text = [] := by
  rw [← ofText_nil, ofText_injective.eq_iff]

theorem ofText_eq_dot_iff : ofText (α := α) text = [dot] ↔ text = ['.'] := by
  rw [← ofText_dot, ofText_injective.eq_iff]

theorem ofText_eq_dots_iff : ofText (α := α) text = [dot, dot] ↔ text = ['.', '.'] := by
  rw [← ofText_dots, ofText_injective.eq_iff]

theorem slash_ne_dot : (slash : α) ≠ dot := by
  intro h
  have htext : ofText (α := α) ['/'] = ofText ['.'] := by rw [ofText_slash, ofText_dot, h]
  exact absurd (ofText_injective htext) (by decide)

theorem slash_mem_toText_iff : '/' ∈ toText letters ↔ slash ∈ letters := by
  refine ⟨slash_mem, fun h => ?_⟩
  obtain ⟨front, back, rfl⟩ := List.append_of_mem h
  rw [toText_append_slash]
  exact List.mem_append_right _ List.mem_cons_self

theorem slash_mem_ofText_iff : slash ∈ ofText (α := α) text ↔ '/' ∈ text := by
  rw [← slash_mem_toText_iff, toText_ofText]

/-- A text begins with a slash if its letters do. -/
theorem head?_ofText_iff : (ofText (α := α) text).head? = some slash ↔ text.head? = some '/' := by
  cases text with
  | nil => simp
  | cons c text =>
    by_cases hc : c = '/'
    · simp [hc, ofText_cons_slash]
    · have hne : ofText (α := α) [c] ≠ [] := mt ofText_eq_nil_iff.1 (List.cons_ne_nil c [])
      have hslash : slash ∉ ofText (α := α) [c] := by
        rw [slash_mem_ofText_iff, List.mem_singleton]
        exact fun h => hc h.symm
      obtain ⟨a, letters, e⟩ := List.exists_cons_of_ne_nil hne
      have ha : a ≠ slash := fun h => hslash (by rw [e, h]; exact List.mem_cons_self)
      rw [← List.singleton_append, ofText_append, e]
      simp [hc, ha]

/-- A text ends with a slash if its letters do. -/
theorem getLast?_ofText_iff :
    (ofText (α := α) text).getLast? = some slash ↔ text.getLast? = some '/' := by
  rcases List.eq_nil_or_concat text with rfl | ⟨front, c, rfl⟩
  · simp
  · rw [List.concat_eq_append, ofText_append, List.getLast?_concat]
    by_cases hc : c = '/'
    · rw [hc, ofText_slash, List.getLast?_concat]
      exact iff_of_true rfl rfl
    · refine iff_of_false (fun h => hc ?_) (by simpa using hc)
      have hne : ofText (α := α) [c] ≠ [] := mt ofText_eq_nil_iff.1 (List.cons_ne_nil c [])
      rw [List.getLast?_append, List.getLast?_eq_some_getLast hne, Option.some_or] at h
      have hmem : slash ∈ ofText (α := α) [c] := Option.some.inj h ▸ List.getLast_mem hne
      exact (List.mem_singleton.1 (slash_mem_ofText_iff.1 hmem)).symm

end Alphabet

end Rehome
