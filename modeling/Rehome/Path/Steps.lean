import Rehome.Data.Split
import Rehome.Path.Basic

/-!
# Theory of components

Which texts are names (`Component.IsName`), which components can stand behind the start of a path
(`Component.IsStep`), and how components and texts determine each other: a text made of steps takes
just those steps (`components_ofComponents`, `components_ofComponents_root`), and joining two paths
puts their steps behind each other (`steps_join`).
-/

namespace Rehome

open Alphabet

variable {α : Type} [Alphabet α]

namespace Component

def IsName (t : List α) : Prop := t ≠ [] ∧ t ≠ [dot] ∧ t ≠ [dot, dot] ∧ slash ∉ t

instance [DecidableEq α] (t : List α) : Decidable (IsName t) := inferInstanceAs (Decidable (_ ∧ _))

/-- Whether a component can stand behind the start of a path. -/
def IsStep : Component α → Prop
  | .up => True
  | .name t => IsName t
  | _ => False

theorem slash_not_mem_text {c : Component α} (h : c.IsStep) : slash ∉ c.text := by
  cases c with
  | up => simp [text, slash_ne_dot]
  | name t => exact h.2.2.2
  | _ => exact h.elim

theorem text_ne_nil {c : Component α} : c.IsStep → c.text ≠ [] := by
  cases c with
  | name t => exact fun h => h.1
  | _ => simp [text]

theorem text_ne_here {c : Component α} (h : c.IsStep) : c.text ≠ [dot] := by
  cases c with
  | up => simp [text]
  | name t => exact h.2.1
  | _ => exact h.elim

variable [DecidableEq α]

theorem ofPiece?_text {c : Component α} (h : c.IsStep) : ofPiece? c.text = some c := by
  cases c with
  | up => simp [ofPiece?, text]
  | name t => simp [ofPiece?, text, h.1, h.2.1, h.2.2.1]
  | _ => exact h.elim

theorem isStep_of_ofPiece? {piece : List α} {c : Component α} (hs : slash ∉ piece)
    (h : ofPiece? piece = some c) : c.IsStep := by
  unfold ofPiece? at h
  split at h
  · cases h
  · split at h <;> cases h
    · trivial
    · simp_all [IsStep, IsName]

theorem ofPiece?_eq_none_iff {piece : List α} : ofPiece? piece = none ↔ isIdle piece = true := by
  unfold ofPiece? isIdle
  split
  · simp_all
  · split <;> simp_all

theorem filterMap_text {cs : List (Component α)} (h : ∀ c ∈ cs, c.IsStep) :
    (cs.map text).filterMap ofPiece? = cs := by
  induction cs with
  | nil => rfl
  | cons c cs ih =>
    simp [ofPiece?_text (h c (by simp)), ih fun d hd => h d (by simp [hd])]

end Component

namespace Path

open Component

variable [DecidableEq α]

theorem isStep_of_mem_steps {p : Path α} {c : Component α} (h : c ∈ p.steps) : c.IsStep := by
  obtain ⟨piece, hp, hc⟩ := List.mem_filterMap.1 h
  exact isStep_of_ofPiece? (not_mem_of_mem_splitOn hp) hc

/-- A component of a path is its start, or one of its steps. -/
theorem mem_components_cases {p : Path α} {c : Component α} (h : c ∈ p.components) :
    (c = .root ∧ p.isAbsolute = true) ∨ c = .here ∨ c ∈ p.steps := by
  obtain h | h := List.mem_append.1 h
  · unfold lead? at h
    split at h
    · rename_i ha
      exact .inl ⟨by simpa using h, ha⟩
    · split at h
      · exact .inr (.inl (by simpa using h))
      · cases h
  · exact .inr (.inr h)

theorem mem_steps_of_mem_tail {p : Path α} {c : Component α} (h : c ∈ p.components.tail) :
    c ∈ p.steps := by
  unfold components at h
  cases hl : p.lead? with
  | none => exact List.mem_of_mem_tail (by simpa [hl] using h)
  | some start => simpa [hl] using h

theorem pieces_joinWith {parts : List (List α)} (hne : parts ≠ []) (h : ∀ t ∈ parts, slash ∉ t) :
    (Path.mk (Text.joinWith slash parts)).pieces = parts :=
  List.splitOn_intercalate slash h hne

theorem pieces_of_notMem {t : List α} (h : slash ∉ t) : (Path.mk t).pieces = [t] := by
  have hp := pieces_joinWith (List.cons_ne_nil t []) fun u hu => List.mem_singleton.1 hu ▸ h
  simpa using hp

theorem pieces_here : (Path.mk [dot] : Path α).pieces = [[dot]] :=
  pieces_of_notMem fun h => slash_ne_dot (List.mem_singleton.1 h)

theorem isAbsolute_here : (Path.mk [dot] : Path α).isAbsolute = false := by
  simp [isAbsolute, slash_ne_dot.symm]

/-- The path `.` has no steps behind its start. -/
theorem components_here : (Path.mk [dot] : Path α).components = [.here] := by
  simp [components, lead?, steps, isAbsolute_here, pieces_here, ofPiece?]

/-- A text takes the steps of the pieces that it is joined of. -/
theorem steps_joinWith_pieces {parts : List (List α)} (h : ∀ t ∈ parts, slash ∉ t) :
    (Path.mk (Text.joinWith slash parts)).steps = parts.filterMap ofPiece? := by
  by_cases hne : parts = []
  · subst hne; rfl
  · rw [steps, pieces_joinWith hne h]

theorem steps_slash (t : List α) : (Path.mk (slash :: t)).steps = (Path.mk t).steps := by
  simp [steps, pieces, List.splitOn_cons_eq_if_modifyHead, ofPiece?]

theorem steps_joinWith {cs : List (Component α)} (h : ∀ c ∈ cs, c.IsStep) :
    (Path.mk (Text.joinWith slash (cs.map Component.text))).steps = cs := by
  rw [steps_joinWith_pieces, filterMap_text h]
  intro t ht
  obtain ⟨c, hc, rfl⟩ := List.mem_map.1 ht
  exact slash_not_mem_text (h c hc)

/-- The text of steps from the root takes just these. -/
theorem components_ofComponents_root {cs : List (Component α)} (h : ∀ c ∈ cs, c.IsStep) :
    (ofComponents (.root :: cs)).components = .root :: cs := by
  have hs := (steps_slash _).trans (steps_joinWith h)
  simp [components, lead?, ofComponents, isAbsolute, hs]

omit [DecidableEq α] in
theorem ofComponents_of_isStep {cs : List (Component α)} (h : ∀ c ∈ cs, c.IsStep) :
    ofComponents cs = ⟨Text.joinWith slash (cs.map Component.text)⟩ := by
  cases cs with
  | nil => rfl
  | cons c cs =>
    cases c with
    | root => exact (h .root (by simp)).elim
    | _ => rfl

/-- The text of steps without a start takes just these. -/
theorem components_ofComponents {cs : List (Component α)} (h : ∀ c ∈ cs, c.IsStep) :
    (ofComponents cs).components = cs := by
  rw [ofComponents_of_isStep h]
  cases cs with
  | nil => rfl
  | cons c cs =>
    have hc := h c (by simp)
    have hp : (Path.mk (Text.joinWith slash ((c :: cs).map Component.text))).pieces
        = (c :: cs).map Component.text := by
      refine pieces_joinWith (by simp) fun t ht => ?_
      obtain ⟨d, hd, rfl⟩ := List.mem_map.1 ht
      exact slash_not_mem_text (h d hd)
    have ha : (Path.mk (Text.joinWith slash ((c :: cs).map Component.text))).isAbsolute
        = false := by
      obtain ⟨x, xs, e⟩ := List.exists_cons_of_ne_nil (text_ne_nil hc)
      have hx : ¬ x = slash := fun e' => slash_not_mem_text hc (by simp [e, e'])
      cases cs <;> simp [isAbsolute, e, hx, List.intercalate]
    simp only [components, lead?, ha, hp, steps_joinWith h]
    simp [text_ne_here hc]

/-! ## Joining -/

theorem pieces_append_slash (s t : List α) :
    (Path.mk (s ++ slash :: t)).pieces = (Path.mk s).pieces ++ (Path.mk t).pieces :=
  List.splitOn_append_cons_self s t

/-- A relative path takes its steps behind those of the directory it is joined to. -/
theorem steps_join {p q : Path α} (hq : q.isAbsolute = false) :
    (p.join q).steps = p.steps ++ q.steps := by
  simp only [join, hq, Bool.false_eq_true, if_false]
  split
  · rename_i h
    rcases h with h | h
    · obtain ⟨t⟩ := p
      simp only at h
      subst h
      simp [steps, pieces, ofPiece?]
    · obtain ⟨s, hs⟩ := List.getLast?_eq_some_iff.1 h
      simp [steps, pieces, hs, List.splitOn_append_cons_self, ofPiece?]
  · simp only [steps, pieces_append_slash, List.filterMap_append]

theorem isAbsolute_join (p q : Path α) :
    (p.join q).isAbsolute = (p.isAbsolute || q.isAbsolute) := by
  unfold join
  by_cases hq : q.isAbsolute = true
  · simp [hq]
  · rw [if_neg hq, Bool.not_eq_true] at *
    obtain ⟨t⟩ := p
    cases t with
    | nil => simp [isAbsolute]
    | cons c cs => split <;> simp_all [isAbsolute]

end Path

end Rehome
