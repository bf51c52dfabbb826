import Rehome.Path.Normal
import Rehome.Path.Steps

/-!
# Theory of normal forms

`Component.IsNormal` says which steps, last step first, are in normal form: names, on top of the
root or of a number of parents. Normalizing gives such steps (`isNormal_normalComponents`), and
leaves such steps alone (`foldl_after_reverse`), so that normalizing twice is normalizing once
(`normalize_normalize`).
-/

namespace Rehome

variable {α : Type} [Alphabet α]

namespace Component

def IsNamed : Component α → Prop
  | .name t => IsName t
  | _ => False

theorem IsNamed.isStep {c : Component α} (h : c.IsNamed) : c.IsStep := by
  cases c with
  | name t => exact h
  | _ => exact h.elim

/-- Steps in normal form, the last one first: names on top of the root or of parents. -/
inductive IsNormal : List (Component α) → Prop
  | root : IsNormal [.root]
  | parents (count : Nat) : IsNormal (List.replicate count .up)
  | name {c : Component α} {cs : List (Component α)} : c.IsNamed → IsNormal cs → IsNormal (c :: cs)

theorem after_of_isNamed {c : Component α} (h : c.IsNamed) (cs : List (Component α)) :
    after cs c = c :: cs := by
  cases c with
  | name t => cases cs with
    | nil => rfl
    | cons d ds => cases d <;> rfl
  | _ => exact h.elim

omit [Alphabet α] in
theorem after_parents (count : Nat) :
    after (List.replicate count (up : Component α)) .up = List.replicate (count + 1) .up := by
  cases count <;> rfl

/-- Another step keeps the normal form. -/
theorem IsNormal.after {cs : List (Component α)} {c : Component α} (h : IsNormal cs)
    (hc : c.IsStep) : IsNormal (after cs c) := by
  cases c with
  | root => exact hc.elim
  | here => exact hc.elim
  | name t => exact after_of_isNamed (c := .name t) hc cs ▸ .name hc h
  | up =>
    cases h with
    | root => exact .root
    | parents count => exact after_parents count ▸ .parents (count + 1)
    | @name d ds hd hds =>
      cases d with
      | name t => exact hds
      | _ => exact hd.elim

theorem IsNormal.foldl_after {cs steps : List (Component α)} (h : IsNormal cs)
    (hs : ∀ c ∈ steps, c.IsStep) : IsNormal (steps.foldl Component.after cs) := by
  induction steps generalizing cs with
  | nil => exact h
  | cons c steps ih =>
    exact ih (h.after (hs c (by simp))) fun d hd => hs d (by simp [hd])

/-- Taking the steps of a normal form one by one gives that normal form. -/
theorem IsNormal.foldl_after_reverse {cs : List (Component α)} (h : IsNormal cs) :
    cs.reverse.foldl Component.after [] = cs := by
  induction h with
  | root => rfl
  | parents count =>
    induction count with
    | zero => rfl
    | succ count ih =>
      rw [List.reverse_replicate] at ih ⊢
      rw [List.replicate_succ', List.foldl_append, ih]
      exact (after_parents count).trans List.replicate_succ'
  | name hc _ ih => simp [ih, after_of_isNamed hc]

/-- Steps in normal form are a start at the root, or none, and then steps that a text can take. -/
theorem IsNormal.eq_root_or_isStep {cs : List (Component α)} (h : IsNormal cs) :
    (∃ names, cs.reverse = .root :: names ∧ ∀ c ∈ names, c.IsNamed)
      ∨ ∀ c ∈ cs.reverse, c.IsStep := by
  induction h with
  | root => exact .inl ⟨[], rfl, by simp⟩
  | parents count =>
    refine .inr fun c hc => ?_
    simp only [List.reverse_replicate, List.mem_replicate] at hc
    exact hc.2 ▸ trivial
  | @name c cs hc _ ih =>
    rcases ih with ⟨names, e, hn⟩ | hs
    · refine .inl ⟨names ++ [c], by simp [e], fun d hd => ?_⟩
      rcases List.mem_append.1 hd with hd | hd
      · exact hn d hd
      · exact List.mem_singleton.1 hd ▸ hc
    · refine .inr fun d hd => ?_
      rw [List.reverse_cons] at hd
      rcases List.mem_append.1 hd with hd | hd
      · exact hs d hd
      · exact List.mem_singleton.1 hd ▸ hc.isStep

end Component

namespace Path

open Component

variable [DecidableEq α]

theorem isNormal_normalComponents (p : Path α) : IsNormal p.normalComponents.reverse := by
  have hs : ∀ c ∈ p.steps, c.IsStep := fun c hc => isStep_of_mem_steps hc
  simp only [normalComponents, List.reverse_reverse, components, List.foldl_append]
  refine IsNormal.foldl_after ?_ hs
  unfold lead?
  split
  · exact .root
  · split
    · exact .parents 0
    · exact .parents 0

/-- The components of a normal form are its steps; a normal form without steps is written `.`. -/
theorem components_ofNormal {cs : List (Component α)} (h : IsNormal cs.reverse) (hne : cs ≠ []) :
    (ofNormal cs).components = cs := by
  obtain ⟨c, cs, rfl⟩ := List.exists_cons_of_ne_nil hne
  rcases h.eq_root_or_isStep with ⟨names, e, hn⟩ | hs
  · rw [List.reverse_reverse] at e
    rw [ofNormal, e]
    exact components_ofComponents_root fun d hd => (hn d hd).isStep
  · rw [List.reverse_reverse] at hs
    exact components_ofComponents hs

theorem normalComponents_ofNormal {cs : List (Component α)} (h : IsNormal cs.reverse) :
    (ofNormal cs).normalComponents = cs := by
  by_cases hne : cs = []
  · subst hne
    rw [ofNormal, normalComponents, components_here]
    rfl
  · have hf := h.foldl_after_reverse
    rw [List.reverse_reverse] at hf
    rw [normalComponents, components_ofNormal h hne, hf, List.reverse_reverse]

@[simp] theorem normalComponents_normalize (p : Path α) :
    p.normalize.normalComponents = p.normalComponents :=
  normalComponents_ofNormal (isNormal_normalComponents p)

@[simp] theorem normalize_normalize (p : Path α) : p.normalize.normalize = p.normalize :=
  congrArg ofNormal (normalComponents_normalize p)

/-- Paths have the same normal form just if they take the same steps in it. -/
theorem normalize_eq_iff {p q : Path α} :
    p.normalize = q.normalize ↔ p.normalComponents = q.normalComponents := by
  constructor
  · intro h
    rw [← normalComponents_normalize p, h, normalComponents_normalize]
  · intro h
    rw [normalize, h, normalize]

/-- Equal paths have the same normal form, however they are spelled. -/
theorem normalize_congr {p q : Path α} (h : p.components = q.components) :
    p.normalize = q.normalize :=
  normalize_eq_iff.2 (by rw [normalComponents, h, normalComponents])

end Path

end Rehome
