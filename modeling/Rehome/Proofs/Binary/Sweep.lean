import Mathlib.Logic.Function.Iterate
import Rehome.Proofs.Binary.Stringwise

/-!
# Replacing by offsets

A sweep goes through the data by offsets: to the next occurrence, through its string up to the next
NUL, and on from there. It breaks off where it needs bytes outside of the data, searches for an
empty text or has to fill up a string that is too long already. None of that happens
(`Sound.advance?_eq`): a step keeps all offsets in the data (`Sound.next`), leaves fewer steps to go
(`remaining_next`) and does not change what the sweep comes to (`outcome_next`), which is what
`replaceStrings?` gives (`run_never_breaks_off`).
-/

namespace Rehome.Binary

/-! ## Sweeps -/

/-- The bytes from one offset up to another, if these offsets bound a part of the data. -/
def slice? (data : Bytes) (i j : Nat) : Option Bytes :=
  if i ≤ j ∧ j ≤ data.length then some ((data.drop i).take (j - i)) else none

/-- By how much one number is greater than another, if it is not smaller. -/
def excess? (m n : Nat) : Option Nat :=
  if n ≤ m then some (m - n) else none

/-- The parts of the data that have a given length, in the order of their offsets. -/
def windows (length : Nat) : Bytes → List Bytes
  | [] => []
  | b :: bytes =>
    if length ≤ (b :: bytes).length then (b :: bytes).take length :: windows length bytes else []

/-- Where `old` occurs first, if it does. An empty text cannot be searched for. -/
def search? (old data : Bytes) : Option (Option Nat) :=
  if old = [] then none else some ((windows old.length data).findIdx? (· = old))

/-- How far a sweep has come, and what it has put out. -/
inductive Sweep where
  /-- At an offset from which on the next occurrence is looked for. -/
  | between (position : Nat) (changed : Bool) (out : Bytes)
  /-- In a string of the length `room` that ends at `stop`. There is a rest of it to go, and
  `written` bytes have been put out for what is in front of that. -/
  | inside (room stop : Nat) (rest : Bytes) (written : Nat) (out : Bytes)
  | ended (result? : Option Bytes)
  deriving DecidableEq, Repr

namespace Sweep

/-- Puts out what is left of the data, if anything was replaced. -/
def finish? (data : Bytes) (position : Nat) (changed : Bool) (out : Bytes) : Option Sweep :=
  if changed then (slice? data position data.length).map fun rest => .ended (some (out ++ rest))
  else some (.ended none)

/-- Goes on to the next occurrence, or through it, unless the sweep breaks off. -/
def advance? (old new data : Bytes) : Sweep → Option Sweep
  | .between position changed out => do
    let ahead ← slice? data position data.length
    match ← search? old ahead with
    | none => finish? data position changed out
    | some offset =>
      let start := position + offset
      let behind ← slice? data (start + old.length) data.length
      match behind.findIdx? (· = 0) with
      | none => finish? data position changed out
      | some nul =>
        let stop := start + old.length + nul
        let before ← slice? data position start
        let string ← slice? data start stop
        return .inside string.length stop string 0 (out ++ before)
  | .inside room stop rest written out => do
    match ← search? old rest with
    | some offset =>
      let before ← slice? rest 0 offset
      let behind ← slice? rest (offset + old.length) rest.length
      return .inside room stop behind (written + (offset + new.length)) (out ++ before ++ new)
    | none =>
      let padding ← excess? room (written + rest.length)
      return .between stop true (out ++ rest ++ List.replicate padding 0)
  | .ended result? => return .ended result?

/-- Where a sweep is after some steps, if it has not broken off. -/
def run (old new data : Bytes) (steps : Nat) : Option Sweep :=
  (·.bind (advance? old new data))^[steps] (some (.between 0 false []))

/-- Whether all offsets lie in the data, as many bytes have been put out as belong there, and a
string has room for the rest of it. -/
def Sound (data : Bytes) : Sweep → Prop
  | between position _ out => position ≤ data.length ∧ out.length = position
  | inside room stop rest written out =>
    stop ≤ data.length ∧ written + rest.length ≤ room ∧ out.length + room = stop + written
  | ended result? => ∀ result, result? = some result → result.length = data.length

/-- How many steps there are to go, at most. A string of one byte takes three: to it, through it and
out of it. -/
def remaining (data : Bytes) : Sweep → Nat
  | between position _ _ => 3 * (data.length - position) + 1
  | inside _ stop rest _ _ => 3 * (data.length - stop) + rest.length + 2
  | ended _ => 0

/-- The step of a sweep that does not break off. -/
def next (old new data : Bytes) : Sweep → Sweep
  | between position changed out =>
    match occurrence? old (data.drop position) with
    | some o => .inside o.string.length (position + o.before.length + o.string.length) o.string 0
        (out ++ o.before)
    | none => .ended (if changed then some (out ++ data.drop position) else none)
  | inside room stop rest written out =>
    match cut? old rest with
    | some (before, behind) =>
      .inside room stop behind (written + (before.length + new.length)) (out ++ before ++ new)
    | none => .between stop true
        (out ++ rest ++ List.replicate (room - (written + rest.length)) 0)
  | ended result? => .ended result?

/-- What a sweep comes to from where it is. -/
def outcome (old new data : Bytes) : Sweep → Option Bytes
  | between position changed out =>
    ((replaceStrings? old new (data.drop position)).map (out ++ ·)).or
      (if changed then some (out ++ data.drop position) else none)
  | inside room stop rest written out =>
    some (out ++ replaceAll old new rest
      ++ List.replicate (room - (written + (replaceAll old new rest).length)) 0
      ++ (replaceStrings? old new (data.drop stop)).getD (data.drop stop))
  | ended result? => result?

end Sweep

section

variable {old data before behind : Bytes} {i : Nat}

theorem drop_add_of_drop (h : data.drop i = before ++ behind) :
    data.drop (i + before.length) = behind := by
  rw [← List.drop_drop, h, List.drop_left]

theorem add_le_of_drop (hi : i ≤ data.length) (h : data.drop i = before ++ behind) :
    i + before.length ≤ data.length := by
  have hlen := congrArg List.length h
  rw [List.length_drop, List.length_append] at hlen
  omega

theorem slice?_length (hi : i ≤ data.length) : slice? data i data.length = some (data.drop i) := by
  rw [slice?, if_pos ⟨hi, Nat.le_refl _⟩, List.take_of_length_le (by simp)]

theorem slice?_add (hi : i ≤ data.length) (h : data.drop i = before ++ behind) :
    slice? data i (i + before.length) = some before := by
  rw [slice?, if_pos ⟨Nat.le_add_right _ _, add_le_of_drop hi h⟩, h, Nat.add_sub_cancel_left,
    List.take_left]

theorem findIdx?_windows (hold : old ≠ []) (data : Bytes) :
    (windows old.length data).findIdx? (· = old) = (cut? old data).map (·.1.length) := by
  induction data with
  | nil => simp [windows, cut?, hold]
  | cons b bytes ih =>
    rw [windows, cut?]
    by_cases hp : old <+: b :: bytes
    · have htake : (b :: bytes).take old.length = old := (List.prefix_iff_eq_take.1 hp).symm
      rw [if_pos hp.length_le, if_pos (List.isPrefixOf_iff_prefix.2 hp)]
      simp [List.findIdx?_cons, htake]
    · have htake : (b :: bytes).take old.length ≠ old := fun e =>
        hp (List.prefix_iff_eq_take.2 e.symm)
      rw [if_neg fun h => hp (List.isPrefixOf_iff_prefix.1 h)]
      split
      · simp only [List.findIdx?_cons, htake, decide_false, Bool.false_eq_true, if_false, ih,
          Option.map_map]
        rfl
      · rename_i hlen
        have hnone : cut? old bytes = none := cut?_eq_none_iff.2 fun h =>
          hlen (Nat.le_succ_of_le h.length_le)
        rw [hnone]
        rfl

theorem search?_eq (hold : old ≠ []) (data : Bytes) :
    search? old data = some ((cut? old data).map (·.1.length)) := by
  rw [search?, if_neg hold, findIdx?_windows hold]

/-- An occurrence has its string up to the first NUL behind it. -/
theorem occurrence?_eq_bind (old data : Bytes) :
    occurrence? old data = (cut? old data).bind fun parts =>
      (parts.2.findIdx? (· = 0)).map fun nul =>
        ⟨parts.1, old ++ parts.2.take nul, parts.2.drop nul⟩ := by
  unfold occurrence?
  cases cut? old data with
  | none => rfl
  | some parts =>
    obtain ⟨before, behind⟩ := parts
    simp only [Option.bind_some, List.takeWhile_eq_take_findIdx_not,
      List.dropWhile_eq_drop_findIdx_not, decide_not, Bool.not_not]
    cases hn : behind.findIdx? (· = 0) with
    | none =>
      have hlen := List.findIdx_eq_length.2 (List.findIdx?_eq_none_iff.1 hn)
      rw [hlen, List.drop_length]
      rfl
    | some nul =>
      obtain ⟨hlt, hnul⟩ := List.findIdx?_eq_some_iff_findIdx_eq.1 hn
      simp only [hnul, List.drop_eq_getElem_cons hlt, Option.map_some]

end

/-! ## One step -/

namespace Sweep

variable {old new data : Bytes} {s : Sweep}

section

variable (hold : old ≠ [])

include hold

theorem advance?_between {position : Nat} {out : Bytes} (hp : position ≤ data.length)
    (changed : Bool) : advance? old new data (.between position changed out)
      = some (next old new data (.between position changed out)) := by
  have hfinish : finish? data position changed out
      = some (.ended (if changed then some (out ++ data.drop position) else none)) := by
    cases changed <;> simp [finish?, slice?_length hp]
  simp only [advance?, next, slice?_length hp, search?_eq hold, occurrence?_eq_bind,
    Option.bind_eq_bind, Option.bind_some]
  cases hc : cut? old (data.drop position) with
  | none => simpa using hfinish
  | some parts =>
    obtain ⟨before, behind⟩ := parts
    have hdata := eq_append_of_cut? hc
    have hle := add_le_of_drop hp hdata
    have hstart := drop_add_of_drop hdata
    simp only [Option.map_some, Option.bind_some, slice?_length (add_le_of_drop hle hstart),
      drop_add_of_drop hstart]
    cases hn : behind.findIdx? (· = 0) with
    | none => simpa using hfinish
    | some nul =>
      obtain ⟨hlt, -⟩ := List.findIdx?_eq_some_iff_findIdx_eq.1 hn
      have hstring : (old ++ behind.take nul).length = old.length + nul := by
        rw [List.length_append, List.length_take_of_le (Nat.le_of_lt hlt)]
      -- the string is what `old` and the bytes up to the NUL take up
      have hsplit : data.drop (position + before.length)
          = (old ++ behind.take nul) ++ behind.drop nul := by
        rw [hstart, List.append_assoc, List.take_append_drop]
      have hslice := slice?_add hle hsplit
      rw [hstring, ← Nat.add_assoc] at hslice
      simp only [slice?_add hp hdata, hslice, Option.bind_some, Option.map_some, hstring]
      rw [Nat.add_assoc (position + before.length)]
      rfl

theorem advance?_inside {room stop written : Nat} {rest out : Bytes}
    (hroom : written + rest.length ≤ room) :
    advance? old new data (.inside room stop rest written out)
      = some (next old new data (.inside room stop rest written out)) := by
  simp only [advance?, next, search?_eq hold, Option.bind_eq_bind, Option.bind_some]
  cases hc : cut? old rest with
  | none =>
    simp only [Option.map_none, excess?, if_pos hroom, Option.bind_some]
    rfl
  | some parts =>
    obtain ⟨before, behind⟩ := parts
    have hrest : rest.drop 0 = before ++ (old ++ behind) := eq_append_of_cut? hc
    have hle := add_le_of_drop (Nat.zero_le _) hrest
    have hstart := drop_add_of_drop hrest
    have hbefore := slice?_add (Nat.zero_le _) hrest
    rw [Nat.zero_add] at hle hstart hbefore
    simp only [Option.map_some, hbefore, slice?_length (add_le_of_drop hle hstart),
      drop_add_of_drop hstart, Option.bind_some]
    rfl

/-- A sound sweep does not break off. -/
theorem Sound.advance?_eq (hs : s.Sound data) :
    advance? old new data s = some (next old new data s) := by
  cases s with
  | between position changed out => exact advance?_between hold hs.1 changed
  | inside room stop rest written out => exact advance?_inside hold hs.2.1
  | ended result? => rfl

end

/-! ## What a step keeps -/

theorem Sound.next (hlen : new.length ≤ old.length) (hs : s.Sound data) :
    (next old new data s).Sound data := by
  cases s with
  | between position changed out =>
    obtain ⟨hp, hout⟩ := hs
    cases ho : occurrence? old (data.drop position) with
    | none =>
      simp only [Sweep.next, ho]
      intro result hr
      obtain ⟨-, rfl⟩ := Option.ite_some_none_eq_some.1 hr
      rw [List.length_append, List.length_drop]
      omega
    | some o =>
      have hdata := congrArg List.length (Occurrence.append_eq ho)
      simp only [List.length_drop, List.length_append] at hdata
      simp only [Sweep.next, ho, Sound, List.length_append]
      omega
  | inside room stop rest written out =>
    obtain ⟨hstop, hroom, hout⟩ := hs
    cases hc : cut? old rest with
    | none =>
      simp only [Sweep.next, hc, Sound, List.length_append, List.length_replicate]
      omega
    | some parts =>
      have hrest := congrArg List.length (eq_append_of_cut? hc)
      simp only [List.length_append] at hrest
      simp only [Sweep.next, hc, Sound, List.length_append]
      omega
  | ended result? => exact hs

section

variable (hold : old ≠ [])

include hold

theorem remaining_next (new data : Bytes) (s : Sweep) :
    (next old new data s).remaining data ≤ s.remaining data - 1 := by
  have hpos := List.length_pos_iff.2 hold
  cases s with
  | between position changed out =>
    cases ho : occurrence? old (data.drop position) with
    | none => simp [Sweep.next, ho, remaining]
    | some o =>
      have hstring := Occurrence.le_length_string ho
      have hdata := congrArg List.length (Occurrence.append_eq ho)
      simp only [List.length_drop, List.length_append] at hdata
      simp only [Sweep.next, ho, remaining]
      omega
  | inside room stop rest written out =>
    cases hc : cut? old rest with
    | none =>
      simp only [Sweep.next, hc, remaining]
      omega
    | some parts =>
      have hrest := congrArg List.length (eq_append_of_cut? hc)
      simp only [List.length_append] at hrest
      simp only [Sweep.next, hc, remaining]
      omega
  | ended result? => exact Nat.le_refl 0

theorem outcome_next (new data : Bytes) (s : Sweep) :
    outcome old new data (next old new data s) = outcome old new data s := by
  cases s with
  | between position changed out =>
    simp only [outcome, Sweep.next, replaceStrings?_eq hold new (data.drop position)]
    cases ho : occurrence? old (data.drop position) with
    | none => simp
    | some o =>
      have hrest : data.drop (position + o.before.length + o.string.length) = o.rest :=
        drop_add_of_drop (drop_add_of_drop (Occurrence.append_eq ho))
      simp [hrest, patch, padTo]
  | inside room stop rest written out =>
    cases hc : cut? old rest with
    | none =>
      have habsent : replaceAll old new rest = rest :=
        replaceAll_of_absent (cut?_eq_none_iff.1 hc)
      simp only [outcome, Sweep.next, hc, habsent]
      cases replaceStrings? old new (data.drop stop) <;> simp
    | some parts =>
      simp only [outcome, Sweep.next, hc, replaceAll_of_cut? hold hc]
      simp [Nat.add_assoc]
  | ended result? => rfl

/-! ## Whole sweeps -/

/-- As many steps as there are to go end a sweep, with what it comes to. -/
theorem iterate_next (new data : Bytes) {n : Nat} (h : s.remaining data ≤ n) :
    (next old new data)^[n] s = .ended (outcome old new data s) := by
  induction n generalizing s with
  | zero =>
    cases s with
    | between => cases h
    | inside => cases h
    | ended result? => rfl
  | succ n ih =>
    have hstep := remaining_next hold new data s
    rw [Function.iterate_succ_apply, ih (by omega), outcome_next hold]

/-- A sweep does not break off, however many steps it takes. -/
theorem run_eq (hlen : new.length ≤ old.length) (data : Bytes) (n : Nat) :
    run old new data n = some ((next old new data)^[n] (.between 0 false []))
    ∧ ((next old new data)^[n] (.between 0 false [])).Sound data := by
  induction n with
  | zero => exact ⟨rfl, Nat.zero_le _, rfl⟩
  | succ n ih =>
    obtain ⟨hrun, hs⟩ := ih
    rw [Function.iterate_succ_apply']
    refine ⟨?_, hs.next hlen⟩
    rw [run, Function.iterate_succ_apply', ← run, hrun, Option.bind_some, hs.advance?_eq hold]

end

theorem replaceStrings?_of_replace {result : Bytes}
    (h : replace old new data = .replaced result) : replaceStrings? old new data = some result := by
  unfold replace at h
  split at h
  · cases h
  · split at h
    · cases h
    · split at h
      · rename_i hresult
        cases h
        exact hresult
      · cases h

/-- A sweep that replaces a text by one that is no longer never breaks off, wherever there are NULs:
it is sound after any number of steps, and after three for each byte and one more it has ended with
what `replaceStrings?` gives. A result has the length of the data. -/
theorem run_never_breaks_off (old new data : Bytes) (hold : old ≠ [])
    (hlen : new.length ≤ old.length) :
    (∀ n, ∃ s, run old new data n = some s ∧ s.Sound data)
    ∧ (∀ n ≥ 3 * data.length + 1,
      run old new data n = some (.ended (replaceStrings? old new data)))
    ∧ (∀ result, replaceStrings? old new data = some result → result.length = data.length)
    ∧ ∀ result, replace old new data = .replaced result → result.length = data.length := by
  have hrun : ∀ n, ∃ s, run old new data n = some s ∧ s.Sound data := fun n =>
    ⟨_, run_eq hold hlen data n⟩
  have hend : ∀ n ≥ 3 * data.length + 1,
      run old new data n = some (.ended (replaceStrings? old new data)) := by
    intro n hn
    have hstart : outcome old new data (.between 0 false []) = replaceStrings? old new data := by
      simp [outcome]
    rw [(run_eq hold hlen data n).1, iterate_next hold new data hn, hstart]
  have hresult : ∀ result, replaceStrings? old new data = some result →
      result.length = data.length := by
    intro result h
    obtain ⟨s, hs, hsound⟩ := hrun (3 * data.length + 1)
    rw [hend _ (Nat.le_refl _)] at hs
    cases hs
    exact hsound result h
  exact ⟨hrun, hend, hresult, fun result h => hresult result (replaceStrings?_of_replace h)⟩

/-- A text that begins and ends with a NUL: its string goes on behind NULs, and the next search
begins at one. -/
theorem run_never_breaks_off_of_nuls :
    let old : Bytes := [0, 47, 0]
    let new : Bytes := [0, 46]
    let data : Bytes := [97, 0, 47, 0, 47, 0, 98, 0]
    let result : Bytes := [97, 0, 46, 47, 0, 0, 98, 0]
    (old ≠ [] ∧ new.length ≤ old.length)
    ∧ run old new data 25 = some (.ended (some result))
    ∧ replaceStrings? old new data = some result
    ∧ result.length = data.length := by
  intro old new data result
  have hold : old ≠ [] := by decide
  have hlen : new.length ≤ old.length := by decide
  obtain ⟨-, hend, hresult, -⟩ := run_never_breaks_off old new data hold hlen
  have hrun : run old new data 25 = some (.ended (some result)) := by decide +kernel
  have hreplaced : replaceStrings? old new data = some result := by
    have h := (hend 25 (by decide)).symm.trans hrun
    injection h with h
    injection h
  exact ⟨⟨hold, hlen⟩, hrun, hreplaced, hresult result hreplaced⟩

end Sweep

end Rehome.Binary
