import Mathlib.Data.List.DropRight
import Rehome.Binary.Runs
import Rehome.Data.Split

/-!
# The run around an occurrence

A text of printable bytes that is long enough for a run occurs in some data exactly where it occurs
in one of its runs (`forall_mem_runs_iff`), so searching the runs misses no occurrence. Read as
texts, runs keep what occurs in them (`infix_asciiText_iff`).
-/

namespace Rehome.Binary

variable {data s run before behind : Bytes}

/-- The printable bytes that an occurrence of `s` is among, with `before` on one side of it and
`behind` on the other. -/
def runAround (before s behind : Bytes) : Bytes :=
  before.rtakeWhile isPrintable ++ (s ++ behind.takeWhile isPrintable)

/-- The runs are what is bounded by bytes that are not printable or by the ends of the data, and is
long enough. -/
theorem mem_runs_iff :
    run ∈ runs data ↔ shortestRun ≤ run.length ∧ ∃ before behind, data = before ++ (run ++ behind)
      ∧ (∀ b ∈ run, isPrintable b = true) ∧ (∀ b ∈ before.getLast?, isPrintable b = false)
      ∧ ∀ b ∈ behind.head?, isPrintable b = false := by
  simp only [runs, List.mem_filter, mem_splitOnP_iff, Bool.not_eq_true', Bool.not_eq_false',
    decide_eq_true_eq, and_comm]

theorem isPrintable_of_mem_runs (h : run ∈ runs data) : ∀ b ∈ run, isPrintable b = true := by
  obtain ⟨-, -, -, -, hr, -⟩ := mem_runs_iff.1 h
  exact hr

section

variable (hs : ∀ b ∈ s, isPrintable b = true)

include hs

theorem runAround_mem_runs (hl : shortestRun ≤ s.length) (before behind : Bytes) :
    runAround before s behind ∈ runs (before ++ (s ++ behind)) := by
  refine mem_runs_iff.2 ⟨?_, before.rdropWhile isPrintable, behind.dropWhile isPrintable, ?_,
    ?_, fun b hb => ?_, fun b hb => ?_⟩
  · simp only [runAround, List.length_append]
    omega
  · calc before ++ (s ++ behind)
        = (before.rdropWhile isPrintable ++ before.rtakeWhile isPrintable)
          ++ (s ++ (behind.takeWhile isPrintable ++ behind.dropWhile isPrintable)) := by
          rw [List.rdropWhile_append_rtakeWhile, List.takeWhile_append_dropWhile]
      _ = _ := by simp only [runAround, List.append_assoc]
  · intro b hb
    rw [runAround, List.mem_append, List.mem_append] at hb
    obtain hb | hb | hb := hb
    · exact List.mem_rtakeWhile_imp hb
    · exact hs b hb
    · exact List.mem_takeWhile_imp hb
  · have hne : before.rdropWhile isPrintable ≠ [] := by
      intro e
      simp [e] at hb
    rw [List.getLast?_eq_some_getLast hne, Option.mem_some_iff] at hb
    rw [← hb]
    exact Bool.eq_false_iff.2 (List.rdropWhile_last_not _ _ hne)
  · have h := List.head?_dropWhile_not isPrintable behind
    rwa [Option.mem_def.1 hb] at h

end

theorem takeWhile_isPrintable_append (hs : ∀ b ∈ s, isPrintable b = true)
    (hb : ∀ b ∈ behind.head?, isPrintable b = false) :
    (s ++ behind).takeWhile isPrintable = s := by
  rw [List.takeWhile_append_of_pos hs]
  cases behind with
  | nil => simp
  | cons b behind => simp [hb b rfl]

/-- The run around an occurrence inside a run is that run. -/
theorem runAround_of_bounded {x y : Bytes} (hx : ∀ b ∈ x, isPrintable b = true)
    (hy : ∀ b ∈ y, isPrintable b = true) (hbefore : ∀ b ∈ before.getLast?, isPrintable b = false)
    (hbehind : ∀ b ∈ behind.head?, isPrintable b = false) :
    runAround (before ++ x) s (y ++ behind) = x ++ (s ++ y) := by
  have hx' : ∀ b ∈ x.reverse, isPrintable b = true := by simpa using hx
  have hbefore' : ∀ b ∈ before.reverse.head?, isPrintable b = false := by simpa using hbefore
  rw [runAround, List.rtakeWhile, List.reverse_append, takeWhile_isPrintable_append hx' hbefore',
    List.reverse_reverse, takeWhile_isPrintable_append hy hbehind]

/-- What holds of all runs in which a text occurs holds of the runs around its occurrences. -/
theorem forall_mem_runs_iff (hs : ∀ b ∈ s, isPrintable b = true) (hl : shortestRun ≤ s.length)
    {P : Bytes → Prop} :
    (∀ run ∈ runs data, s <:+: run → P run)
      ↔ ∀ before behind, data = before ++ (s ++ behind) → P (runAround before s behind) := by
  constructor
  · rintro h before behind rfl
    exact h _ (runAround_mem_runs hs hl before behind)
      ⟨before.rtakeWhile isPrintable, behind.takeWhile isPrintable, by simp [runAround]⟩
  · rintro h run hrun ⟨x, y, rfl⟩
    obtain ⟨-, pre, post, rfl, hprintable, hpre, hpost⟩ := mem_runs_iff.1 hrun
    have hx : ∀ b ∈ x, isPrintable b = true := fun b hb => hprintable b (by simp [hb])
    have hy : ∀ b ∈ y, isPrintable b = true := fun b hb => hprintable b (by simp [hb])
    have hrun := runAround_of_bounded (s := s) hx hy hpre hpost
    rw [List.append_assoc, ← hrun]
    exact h _ _ (by simp)

/-! ## Runs as texts -/

theorem asciiText_append (bytes bytes' : Bytes) :
    asciiText (bytes ++ bytes') = asciiText bytes ++ asciiText bytes' := List.map_append

/-- Printable bytes are characters of their own. -/
theorem lt_of_isPrintable {b : UInt8} (h : isPrintable b = true) : b < 0x80 := by
  simp only [isPrintable, Bool.or_eq_true, decide_eq_true_eq, Bool.and_eq_true] at h
  obtain rfl | ⟨-, h⟩ := h
  · decide
  · exact UInt8.lt_trans h (by decide)

theorem utf8EncodeChar_ofNat {b : UInt8} (h : b < 0x80) :
    String.utf8EncodeChar (Char.ofNat b.toNat) = [b] := by
  have hall : ∀ n < 0x80, String.utf8EncodeChar (Char.ofNat n) = [UInt8.ofNat n] := by decide
  rw [hall b.toNat (UInt8.lt_iff_toNat_lt.1 h), UInt8.ofNat_toNat]

theorem utf8_asciiText {bytes : Bytes} (h : ∀ b ∈ bytes, b < 0x80) :
    Text.utf8 (asciiText bytes) = bytes := by
  induction bytes with
  | nil => rfl
  | cons b bytes ih =>
    obtain ⟨hb, hrest⟩ := List.forall_mem_cons.1 h
    rw [asciiText, List.map_cons, Text.utf8, List.flatMap_cons, utf8EncodeChar_ofNat hb]
    exact congrArg (b :: ·) (ih hrest)

/-- The last byte of a character that takes several is not below 0x80. -/
theorem asciiText_utf8EncodeChar {c : Char} (h : ∀ b ∈ String.utf8EncodeChar c, b < 0x80) :
    asciiText (String.utf8EncodeChar c) = [c] := by
  by_cases hv : c.val.toNat ≤ 127
  · have hone : String.utf8EncodeChar c = [UInt8.ofNat c.toNat] := if_pos hv
    have hmod : c.toNat % 2 ^ 8 = c.toNat := Nat.mod_eq_of_lt (by unfold Char.toNat; omega)
    rw [hone, asciiText, List.map_singleton, UInt8.toNat_ofNat', hmod, Char.ofNat_toNat]
  · have hlast : UInt8.ofNat (c.val.toNat % 64 + 128) ∈ String.utf8EncodeChar c := by
      simp only [String.utf8EncodeChar, if_neg hv]
      split_ifs <;> simp
    have hlt := UInt8.lt_iff_toNat_lt.1 (h _ hlast)
    rw [UInt8.toNat_ofNat'] at hlt
    have h80 : (0x80 : UInt8).toNat = 128 := rfl
    omega

theorem asciiText_utf8 {t : Text} (h : ∀ b ∈ Text.utf8 t, b < 0x80) :
    asciiText (Text.utf8 t) = t := by
  induction t with
  | nil => rfl
  | cons c t ih =>
    rw [Text.utf8, List.flatMap_cons] at h ⊢
    obtain ⟨hc, ht⟩ := List.forall_mem_append.1 h
    rw [asciiText_append, asciiText_utf8EncodeChar hc]
    exact congrArg (c :: ·) (ih ht)

/-- Bytes below 0x80 read as a character each. -/
theorem ofUtf8_of_lt {bytes : Bytes} (h : ∀ b ∈ bytes, b < 0x80) :
    Text.ofUtf8 bytes = asciiText bytes := by
  unfold Text.ofUtf8
  induction bytes with
  | nil => rfl
  | cons b bytes ih =>
    obtain ⟨hb, hrest⟩ := List.forall_mem_cons.1 h
    have hfirst : Text.firstChar b bytes = (Char.ofNat b.toNat, 0) := if_pos hb
    rw [Text.ofUtf8After, hfirst]
    exact congrArg (Char.ofNat b.toNat :: ·) (ih hrest)

section

variable (hr : ∀ b ∈ run, isPrintable b = true) {t : Text}

include hr

theorem asciiText_eq_iff : asciiText run = t ↔ run = Text.utf8 t := by
  have hrun : ∀ b ∈ run, b < 0x80 := fun b hb => lt_of_isPrintable (hr b hb)
  constructor
  · rintro rfl
    exact (utf8_asciiText hrun).symm
  · rintro rfl
    exact asciiText_utf8 hrun

/-- What occurs in a run as a text occurs in it as bytes. -/
theorem infix_asciiText_iff (ht : ∀ b ∈ Text.utf8 t, isPrintable b = true) :
    t <:+: asciiText run ↔ Text.utf8 t <:+: run := by
  have hrun : ∀ b ∈ run, b < 0x80 := fun b hb => lt_of_isPrintable (hr b hb)
  constructor
  · rintro ⟨x, y, e⟩
    refine ⟨Text.utf8 x, Text.utf8 y, ?_⟩
    rw [← utf8_asciiText hrun, ← e]
    rw [Text.utf8_append, Text.utf8_append]
  · rintro ⟨x, y, rfl⟩
    refine ⟨asciiText x, asciiText y, ?_⟩
    have ht' : asciiText (Text.utf8 t) = t := asciiText_utf8 fun b hb => lt_of_isPrintable (ht b hb)
    rw [asciiText_append, asciiText_append, ht']

end

end Rehome.Binary
