import Mathlib.Algebra.Order.BigOperators.Group.List
import Mathlib.Algebra.Order.Group.Nat
import Rehome.Proofs.Path.Route

/-!
# Normal forms are what a path means

A normal form leads from every directory to where the path leads (`resolve_normalize`). Conversely,
two normal forms that lead to the same places are the same (`normalize_eq_iff_resolve`): from a
directory deep enough, below names that occur in neither of them, a relative path shows how many
parents it goes up and which names it then goes down, and no path from the root leads below there.
-/

namespace Rehome

open Alphabet Component

variable {α : Type} [Alphabet α]

namespace Component

variable {cs steps : List (Component α)} {c : Component α} {names : List (List α)}

/-- A step behind a normal form leads one step further. -/
theorem IsNormal.foldl_step_after (h : IsNormal cs) (hc : c.IsStep) (cwd : Location α) :
    (Component.after cs c).reverse.foldl Location.step cwd
      = (cs.reverse.foldl Location.step cwd).step c := by
  cases c with
  | root => exact hc.elim
  | here => exact hc.elim
  | name t =>
    rw [after_of_isNamed (c := .name t) hc, List.reverse_cons, List.foldl_append]
    rfl
  | up =>
    cases h with
    | root => rfl
    | parents count =>
      rw [after_parents, List.reverse_replicate, List.reverse_replicate, List.replicate_succ',
        List.foldl_append]
      rfl
    | @name d ds hd _ =>
      cases d with
      | name t =>
        rw [Component.after, List.reverse_cons, List.foldl_append]
        exact List.dropLast_concat.symm
      | _ => exact hd.elim

theorem IsNormal.foldl_step_foldl_after (h : IsNormal cs) (hs : ∀ c ∈ steps, c.IsStep)
    (cwd : Location α) :
    (steps.foldl Component.after cs).reverse.foldl Location.step cwd
      = steps.foldl Location.step (cs.reverse.foldl Location.step cwd) := by
  induction steps generalizing cs with
  | nil => rfl
  | cons c steps ih =>
    obtain ⟨hc, hsteps⟩ := List.forall_mem_cons.1 hs
    rw [List.foldl_cons, List.foldl_cons, ih (h.after hc) hsteps, h.foldl_step_after hc]

theorem IsNormal.append_names (h : IsNormal cs) (hn : Location.Named names) :
    IsNormal ((names.map .name).reverse ++ cs) := by
  induction names generalizing cs with
  | nil => exact h
  | cons t names ih =>
    obtain ⟨ht, hnames⟩ := List.forall_mem_cons.1 hn
    rw [List.map_cons, List.reverse_cons, List.append_assoc]
    exact ih (.name (c := .name t) ht h) hnames

/-- Steps in normal form lead down from the root, or up a number of times and then down. -/
theorem IsNormal.reverse_cases (h : IsNormal cs) :
    (∃ loc, Location.Named loc ∧ cs.reverse = loc.components)
      ∨ ∃ count names, Location.Named names
        ∧ cs.reverse = List.replicate count .up ++ names.map .name := by
  induction h with
  | root => exact .inl ⟨[], List.forall_mem_nil _, rfl⟩
  | parents count => exact .inr ⟨count, [], List.forall_mem_nil _, by simp⟩
  | @name c cs hc _ ih =>
    cases c with
    | name t =>
      have ht : Location.Named [t] := List.forall_mem_singleton.2 hc
      obtain ⟨loc, hloc, e⟩ | ⟨count, names, hnames, e⟩ := ih
      · exact .inl ⟨loc ++ [t], hloc.append ht, by simp [e, Location.components]⟩
      · exact .inr ⟨count, names ++ [t], hnames.append ht, by simp [e]⟩
    | _ => exact hc.elim

/-- There is always another name. -/
theorem exists_isName_notMem (names : List (List α)) : ∃ t, IsName t ∧ t ∉ names := by
  have hlen : ∀ k, (List.replicate k (dot : α)).length = k := fun k => List.length_replicate
  refine ⟨List.replicate ((names.map List.length).sum + 3) dot,
    ⟨?_, fun e => ?_, fun e => ?_, fun h => ?_⟩, fun h => ?_⟩
  · exact List.cons_ne_nil _ _
  · have := congrArg List.length e
    rw [hlen, List.length_singleton] at this
    omega
  · have := congrArg List.length e
    rw [hlen] at this
    exact absurd this (by simp)
  · exact slash_ne_dot (List.eq_of_mem_replicate h)
  · -- it is longer than every name in the list
    have hle := List.le_sum_of_mem (List.mem_map_of_mem (f := List.length) h)
    rw [hlen] at hle
    omega

end Component

namespace Path

variable [DecidableEq α] {p q : Path α} {loc : Location α} {count : Nat} {names : List (List α)}

/-- The steps of its normal form lead where the path leads. -/
theorem foldl_step_normalComponents (p : Path α) (cwd : Location α) :
    p.normalComponents.foldl Location.step cwd = p.resolve cwd := by
  have hs : ∀ c ∈ p.steps, c.IsStep := fun c hc => isStep_of_mem_steps hc
  simp only [normalComponents, resolve, components, List.foldl_append]
  unfold lead?
  split
  · exact IsNormal.root.foldl_step_foldl_after hs cwd
  · split
    · exact (IsNormal.parents 0).foldl_step_foldl_after hs cwd
    · exact (IsNormal.parents 0).foldl_step_foldl_after hs cwd

@[simp] theorem resolve_normalize (p : Path α) (cwd : Location α) :
    p.normalize.resolve cwd = p.resolve cwd := by
  rw [← foldl_step_normalComponents, normalComponents_normalize, foldl_step_normalComponents]

theorem normalComponents_cases (p : Path α) :
    (∃ loc, Location.Named loc ∧ p.normalComponents = loc.components)
      ∨ ∃ count names, Location.Named names
        ∧ p.normalComponents = List.replicate count .up ++ names.map .name := by
  have h := (isNormal_normalComponents p).reverse_cases
  rwa [List.reverse_reverse] at h

/-! ## Telling normal forms apart -/

theorem resolve_of_root (h : p.normalComponents = loc.components) (cwd : Location α) :
    p.resolve cwd = loc := by
  rw [← foldl_step_normalComponents, h, Location.components, List.foldl_cons]
  exact Location.foldl_step_names [] loc

/-- From a directory that is deep enough, a relative path leaves some of it and goes down from
there. -/
theorem resolve_of_parents (h : p.normalComponents = List.replicate count .up ++ names.map .name)
    (left : Nat) (t : List α) :
    p.resolve (List.replicate (left + count) t) = List.replicate left t ++ names := by
  have hups := Location.foldl_step_ups (List.replicate left t) (List.replicate count t)
  rw [List.map_replicate, List.replicate_append_replicate] at hups
  rw [← foldl_step_normalComponents, h, List.foldl_append, hups, Location.foldl_step_names]

omit [DecidableEq α] in
theorem named_replicate {t : List α} (ht : IsName t) (k : Nat) :
    Location.Named (List.replicate k t) := fun _ hu => List.eq_of_mem_replicate hu ▸ ht

theorem exists_resolve_ne (hp : p.normalComponents = loc.components)
    (hq : q.normalComponents = List.replicate count .up ++ names.map .name) :
    ∃ cwd, Location.Named cwd ∧ p.resolve cwd ≠ q.resolve cwd := by
  obtain ⟨t, ht, hnew⟩ := exists_isName_notMem loc
  refine ⟨List.replicate (1 + count) t, named_replicate ht _, fun h => hnew ?_⟩
  rw [resolve_of_root hp, resolve_of_parents hq] at h
  rw [h]
  exact List.mem_cons_self

omit [Alphabet α] in
theorem eq_of_replicate_append {t : List α} {k l : Nat} {xs ys : List (List α)} (hx : t ∉ xs)
    (hy : t ∉ ys) (h : List.replicate k t ++ xs = List.replicate l t ++ ys) : k = l ∧ xs = ys := by
  have hcount := congrArg (List.count t) h
  rw [List.count_append, List.count_append, List.count_replicate_self, List.count_replicate_self,
    List.count_eq_zero.2 hx, List.count_eq_zero.2 hy] at hcount
  obtain rfl : k = l := by omega
  exact ⟨rfl, List.append_cancel_left h⟩

/-- Paths that lead to the same places from all directories have the same normal form. -/
theorem normalComponents_eq_of_resolve
    (h : ∀ cwd, Location.Named cwd → p.resolve cwd = q.resolve cwd) :
    p.normalComponents = q.normalComponents := by
  obtain ⟨loc, -, hp⟩ | ⟨count, names, -, hp⟩ := normalComponents_cases p
  · obtain ⟨loc', -, hq⟩ | ⟨count', names', -, hq⟩ := normalComponents_cases q
    · have hloc := h [] (List.forall_mem_nil _)
      rw [resolve_of_root hp, resolve_of_root hq] at hloc
      rw [hp, hq, hloc]
    · obtain ⟨cwd, hcwd, hne⟩ := exists_resolve_ne hp hq
      exact absurd (h cwd hcwd) hne
  · obtain ⟨loc', -, hq⟩ | ⟨count', names', -, hq⟩ := normalComponents_cases q
    · obtain ⟨cwd, hcwd, hne⟩ := exists_resolve_ne hq hp
      exact absurd (h cwd hcwd).symm hne
    · -- what is left of a directory of new names tells how many parents are gone
      obtain ⟨t, ht, hnew⟩ := exists_isName_notMem (names ++ names')
      rw [List.mem_append, not_or] at hnew
      have hleft := h _ (named_replicate ht (count' + count))
      rw [resolve_of_parents hp, Nat.add_comm, resolve_of_parents hq] at hleft
      obtain ⟨rfl, rfl⟩ := eq_of_replicate_append hnew.1 hnew.2 hleft
      rw [hp, hq]

theorem normalize_eq_iff_resolve :
    p.normalize = q.normalize ↔ ∀ cwd, Location.Named cwd → p.resolve cwd = q.resolve cwd := by
  constructor
  · intro h cwd _
    rw [← resolve_normalize p, h, resolve_normalize]
  · intro h
    exact normalize_eq_iff.2 (normalComponents_eq_of_resolve h)

end Path

end Rehome
