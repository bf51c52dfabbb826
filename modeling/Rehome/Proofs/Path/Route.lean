import Mathlib.Data.List.Induction
import Rehome.Path.Relative
import Rehome.Proofs.Path.Absolute

/-!
# Routes lead to their targets

The route from a directory to a path goes up out of the names that only the directory has, and then
down. Following it leads from the one location to the other (`foldl_step_route`), and it does not
depend on what the two have in common (`route_append`). It is the way that routers find between
absolute paths (`Router.route?_of_isAbsolute`).
-/

namespace Rehome

variable {α : Type} [DecidableEq α]

/-- A route goes up a number of times, and then takes the last steps of its target. -/
theorem Component.exists_route_eq (source target : List (Component α)) :
    ∃ ups rest, rest <:+ target ∧ route source target = List.replicate ups .up ++ rest := by
  induction source generalizing target with
  | nil => exact ⟨0, target, List.suffix_refl _, rfl⟩
  | cons s ss ih =>
    cases target with
    | nil =>
      refine ⟨(s :: ss).length, [], List.suffix_refl _, ?_⟩
      rw [← List.map_const']
      rfl
    | cons t ts =>
      rw [route]
      split
      · obtain ⟨ups, rest, hrest, e⟩ := ih ts
        exact ⟨ups, rest, hrest.trans (List.suffix_cons t ts), e⟩
      · exact ⟨(s :: ss).length, t :: ts, List.suffix_refl _, by rw [List.map_const']⟩

namespace Location

/-- The route between two locations. -/
def route (source target : Location α) : List (Component α) :=
  Component.route (source.map .name) (target.map .name)

theorem route_nil_left (target : Location α) : route [] target = target.map .name := rfl

theorem route_nil_right (source : Location α) : route source [] = source.map fun _ => .up := by
  cases source with
  | nil => rfl
  | cons s ss =>
    simp only [route, List.map_nil, List.map_cons, Component.route, List.append_nil, List.map_map,
      Function.comp_def]

theorem route_cons_cons (s t : List α) (ss ts : Location α) :
    route (s :: ss) (t :: ts)
      = if s = t then route ss ts
        else (s :: ss).map (fun _ => .up) ++ (t :: ts).map .name := by
  simp [route, Component.route, Function.comp_def]

omit [DecidableEq α] in
theorem foldl_step_ups (base : Location α) (names : List (List α)) :
    (names.map fun _ => Component.up).foldl step (base ++ names) = base := by
  induction names using List.reverseRecOn with
  | nil => simp
  | append_singleton names t ih =>
    have hr : ((names ++ [t]).map fun _ => (Component.up : Component α))
        = .up :: names.map fun _ => .up := by
      simp only [List.map_const', List.length_append, List.length_singleton, List.replicate_succ]
    rw [hr, List.foldl_cons, step, ← List.append_assoc, List.dropLast_concat, ih]

/-- Following a route leads to its target, whatever the two locations lie below. -/
theorem foldl_step_route (base source target : Location α) :
    (route source target).foldl step (base ++ source) = base ++ target := by
  induction source generalizing base target with
  | nil => rw [route_nil_left, List.append_nil, foldl_step_names]
  | cons s ss ih =>
    cases target with
    | nil => rw [route_nil_right, foldl_step_ups, List.append_nil]
    | cons t ts =>
      rw [route_cons_cons]
      split
      · rename_i e
        subst e
        have := ih (base ++ [s]) ts
        simpa using this
      · rw [List.foldl_append, foldl_step_ups, foldl_step_names]

/-- What two locations have in common does not count for the route between them. -/
theorem route_append (base source target : Location α) :
    route (base ++ source) (base ++ target) = route source target := by
  induction base with
  | nil => rfl
  | cons t base ih => rw [List.cons_append, List.cons_append, route_cons_cons, if_pos rfl, ih]

/-- A route between locations goes up a number of times, and then down the last names of its
target. -/
theorem exists_route_eq (source target : Location α) :
    ∃ ups names, names <:+ target
      ∧ route source target = List.replicate ups .up ++ names.map .name := by
  obtain ⟨ups, rest, ⟨front, hfront⟩, e⟩ :=
    Component.exists_route_eq (source.map .name) (target.map .name)
  obtain ⟨above, names, htarget, -, hnames⟩ := List.append_eq_map_iff.1 hfront
  exact ⟨ups, names, ⟨above, htarget.symm⟩, by rw [route, e, hnames]⟩

variable [Alphabet α]

theorem isStep_of_mem_route {source target : Location α} (h : Named target) {c : Component α}
    (hc : c ∈ route source target) : c.IsStep := by
  obtain ⟨ups, names, hsuffix, e⟩ := exists_route_eq source target
  rw [e] at hc
  obtain hc | hc := List.mem_append.1 hc
  · rw [List.eq_of_mem_replicate hc]
    trivial
  · exact isStep_of_named (fun t ht => h t (hsuffix.subset ht)) c hc

end Location

namespace Path

variable [Alphabet α]

/-- Between absolute paths there is a way, the route from the one location to the other. -/
theorem Router.route?_of_isAbsolute [Router α] {target source : Path α}
    (ht : target.isAbsolute = true) (hs : source.isAbsolute = true) :
    Router.route? target.normalize source.normalize
      = some (ofComponents (Location.route (source.resolve []) (target.resolve []))) := by
  have hroot : Component.route (source.resolve []).components (target.resolve []).components
      = Location.route (source.resolve []) (target.resolve []) := by
    simp [Location.components, Component.route, Location.route]
  rw [Router.route?_of_normal _ (normalize_normalize _) _ (normalize_normalize _),
    normalize_of_isAbsolute ht, normalize_of_isAbsolute hs,
    Location.components_toPath (named_resolve hs []),
    Location.components_toPath (named_resolve ht []), hroot]
  · rw [normalize_of_isAbsolute ht]
    exact Location.isAbsolute_toPath _
  · rw [normalize_of_isAbsolute hs]
    exact Location.isAbsolute_toPath _

end Path

end Rehome
