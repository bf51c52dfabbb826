import Rehome.Path.Location
import Rehome.Path.NormalForm

/-!
# Absolute paths and locations

An absolute path leads to one location, whatever the current directory, and its normal form is
that location written from the root (`normalize_of_isAbsolute`). So normalizing, taking the
directory, joining and comparing absolute paths are operations on lists of names
(`directory_of_isAbsolute`, `resolve_join`, `resolve_append`, `liesUnder_iff`).
-/

namespace Rehome

open Alphabet Component

variable {α : Type} [Alphabet α]

namespace Location

/-- Whether the names of a location can be names of files. -/
def Named (loc : Location α) : Prop := ∀ t ∈ loc, IsName t

/-- The components of the path of a location. -/
def components (loc : Location α) : List (Component α) := .root :: loc.map .name

theorem Named.dropLast {loc : Location α} (h : Named loc) : Named loc.dropLast :=
  fun t ht => h t (List.dropLast_subset loc ht)

theorem Named.append {l m : Location α} (hl : Named l) (hm : Named m) : Named (l ++ m) := by
  intro t ht
  rcases List.mem_append.1 ht with ht | ht
  · exact hl t ht
  · exact hm t ht

theorem Named.step {loc : Location α} {c : Component α} (h : Named loc) (hc : c.IsStep) :
    Named (loc.step c) := by
  cases c with
  | root => exact hc.elim
  | here => exact hc.elim
  | up => exact h.dropLast
  | name t => exact h.append (fun u hu => List.mem_singleton.1 hu ▸ hc)

theorem Named.foldl_step {loc : Location α} {cs : List (Component α)} (h : Named loc)
    (hs : ∀ c ∈ cs, c.IsStep) : Named (cs.foldl Location.step loc) := by
  induction cs generalizing loc with
  | nil => exact h
  | cons c cs ih => exact ih (h.step (hs c (by simp))) fun d hd => hs d (by simp [hd])

/-- A step on a normal form at the root is a step on its location. -/
theorem after_components (loc : Location α) {c : Component α} (hc : c.IsStep) :
    after loc.components.reverse c = (loc.step c).components.reverse := by
  cases c with
  | root => exact hc.elim
  | here => exact hc.elim
  | name t => rw [after_of_isNamed (c := .name t) hc]; simp [components, step]
  | up =>
    rcases List.eq_nil_or_concat loc with rfl | ⟨init, t, rfl⟩
    · rfl
    · simp [components, step, after]

theorem foldl_after_components (loc : Location α) {cs : List (Component α)}
    (hs : ∀ c ∈ cs, c.IsStep) :
    cs.foldl after loc.components.reverse = (cs.foldl step loc).components.reverse := by
  induction cs generalizing loc with
  | nil => rfl
  | cons c cs ih =>
    rw [List.foldl_cons, after_components loc (hs c (by simp))]
    exact ih _ fun d hd => hs d (by simp [hd])

theorem isStep_of_named {loc : Location α} (h : Named loc) :
    ∀ c ∈ loc.map Component.name, c.IsStep := by
  intro c hc
  obtain ⟨t, ht, rfl⟩ := List.mem_map.1 hc
  exact h t ht

omit [Alphabet α] in
theorem foldl_step_names (l m : Location α) : (m.map Component.name).foldl step l = l ++ m := by
  induction m generalizing l with
  | nil => simp
  | cons t m ih => simp [ih, step]

theorem toPath_eq_ofComponents (loc : Location α) :
    loc.toPath = Path.ofComponents loc.components := by
  simp [toPath, components, Path.ofComponents, Component.text, Function.comp_def]

variable [DecidableEq α]

theorem isAbsolute_toPath (loc : Location α) : loc.toPath.isAbsolute = true := decide_eq_true rfl

theorem components_toPath {loc : Location α} (h : Named loc) :
    loc.toPath.components = loc.components := by
  rw [toPath_eq_ofComponents]
  exact Path.components_ofComponents_root (isStep_of_named h)

end Location

namespace Path

open Location

variable [DecidableEq α]

theorem components_of_isAbsolute {p : Path α} (h : p.isAbsolute = true) :
    p.components = .root :: p.steps := by
  simp [components, lead?, h]

/-- An absolute path leads to the same place from everywhere. -/
theorem resolve_of_isAbsolute {p : Path α} (h : p.isAbsolute = true) (cwd : Location α) :
    p.resolve cwd = p.steps.foldl Location.step [] := by
  rw [resolve, components_of_isAbsolute h]
  rfl

/-- A relative path leads on from the directory it is taken from. -/
theorem resolve_of_relative {p : Path α} (h : p.isAbsolute = false) (cwd : Location α) :
    p.resolve cwd = p.steps.foldl Location.step cwd := by
  rw [resolve, components, List.foldl_append]
  unfold lead?
  rw [h]
  split
  · contradiction
  · split <;> rfl

theorem named_resolve {p : Path α} (h : p.isAbsolute = true) (cwd : Location α) :
    Named (p.resolve cwd) := by
  rw [resolve_of_isAbsolute h]
  exact Named.foldl_step (fun t ht => (List.not_mem_nil ht).elim)
    fun c hc => isStep_of_mem_steps hc

theorem normalComponents_of_isAbsolute {p : Path α} (h : p.isAbsolute = true) :
    p.normalComponents = (p.resolve []).components := by
  have hs : ∀ c ∈ p.steps, c.IsStep := fun c hc => isStep_of_mem_steps hc
  have hf := foldl_after_components [] hs
  rw [resolve_of_isAbsolute h, normalComponents, components_of_isAbsolute h, List.foldl_cons]
  rw [show after [] .root = (Location.components []).reverse from rfl, hf, List.reverse_reverse]

/-- The normal form of an absolute path is the path of its location. -/
theorem normalize_of_isAbsolute {p : Path α} (h : p.isAbsolute = true) :
    p.normalize = (p.resolve []).toPath := by
  rw [normalize, normalComponents_of_isAbsolute h, toPath_eq_ofComponents]
  rfl

theorem steps_toPath {loc : Location α} (h : Named loc) : loc.toPath.steps = loc.map .name := by
  have hc := components_toPath h
  rw [components_of_isAbsolute (isAbsolute_toPath loc), Location.components, List.cons.injEq] at hc
  exact hc.2

theorem resolve_toPath {loc : Location α} (h : Named loc) (cwd : Location α) :
    loc.toPath.resolve cwd = loc := by
  rw [resolve_of_isAbsolute (isAbsolute_toPath loc), steps_toPath h]
  exact foldl_step_names [] loc

theorem directory_of_isAbsolute {p : Path α} (h : p.isAbsolute = true) :
    p.directory = Location.toPath (p.resolve []).dropLast := by
  rw [directory, normalComponents_of_isAbsolute h]
  rcases List.eq_nil_or_concat (p.resolve []) with e | ⟨init, t, e⟩
  · rw [e]; rfl
  · have hd : (p.resolve []).components.dropLast = Location.components init := by
      simp [e, Location.components, List.dropLast_cons_of_ne_nil]
    rw [hd, e, List.concat_eq_append, List.dropLast_concat, toPath_eq_ofComponents]
    rfl

theorem isAbsolute_directory {p : Path α} (h : p.isAbsolute = true) :
    p.directory.isAbsolute = true := by
  rw [directory_of_isAbsolute h, isAbsolute_toPath]

theorem normalize_directory {p : Path α} (h : p.isAbsolute = true) :
    p.directory.normalize = p.directory := by
  rw [directory_of_isAbsolute h, normalize_of_isAbsolute (isAbsolute_toPath _),
    resolve_toPath (named_resolve h []).dropLast]

/-- The directory of a path is one name up. -/
theorem resolve_directory {p : Path α} (h : p.isAbsolute = true) (cwd : Location α) :
    p.directory.resolve cwd = (p.resolve []).dropLast := by
  rw [directory_of_isAbsolute h]
  exact resolve_toPath (named_resolve h []).dropLast cwd

/-- An absolute path in normal form is the path of a location. -/
theorem exists_toPath {p : Path α} (h : p.isAbsolute = true) (hn : p.normalize = p) :
    ∃ loc, Named loc ∧ p = loc.toPath :=
  ⟨p.resolve [], named_resolve h [], hn.symm.trans (normalize_of_isAbsolute h)⟩

theorem toPath_inj {l m : Location α} (hl : Named l) (hm : Named m) (h : l.toPath = m.toPath) :
    l = m := by
  rw [← resolve_toPath hl [], h, resolve_toPath hm]

/-! ## Longer paths -/

/-- A relative path takes its steps behind those of the directory it is joined to. -/
theorem components_join {p q : Path α} (hp : p.isAbsolute = true) (hq : q.isAbsolute = false) :
    (p.join q).components = p.components ++ q.steps := by
  have ha : (p.join q).isAbsolute = true := by rw [isAbsolute_join, hp]; rfl
  rw [components_of_isAbsolute ha, components_of_isAbsolute hp, steps_join hq, List.cons_append]

theorem resolve_join {p q : Path α} (hp : p.isAbsolute = true) (hq : q.isAbsolute = false) :
    (p.join q).resolve [] = q.steps.foldl Location.step (p.resolve []) := by
  rw [resolve, components_join hp hq, List.foldl_append]
  rfl

theorem isAbsolute_append {p : Path α} (h : p.isAbsolute = true) (rest : List α) :
    (Path.mk (p.text ++ rest)).isAbsolute = true := by
  obtain ⟨t⟩ := p
  cases t with
  | nil => cases h
  | cons c cs => exact h

/-- A text that begins with a slash takes its steps behind those of the path it is put to. -/
theorem steps_append {p : Path α} {rest : List α} (hr : rest = [] ∨ rest.head? = some slash) :
    (Path.mk (p.text ++ rest)).steps = p.steps ++ (Path.mk rest).steps := by
  rcases hr with rfl | hr
  · simp [show (Path.mk []).steps = [] from rfl]
  · obtain ⟨t, rfl⟩ := List.head?_eq_some_iff.1 hr
    rw [steps, pieces_append_slash, List.filterMap_append, steps_slash]
    rfl

theorem resolve_append {p : Path α} {rest : List α} (h : p.isAbsolute = true)
    (hr : rest = [] ∨ rest.head? = some slash) :
    (Path.mk (p.text ++ rest)).resolve []
      = (Path.mk rest).steps.foldl Location.step (p.resolve []) := by
  rw [resolve_of_isAbsolute (isAbsolute_append h rest), resolve_of_isAbsolute h, steps_append hr,
    List.foldl_append]

theorem isAbsolute_dropWhile_slash (t : List α) :
    (Path.mk (t.dropWhile (· = slash))).isAbsolute = false := by
  have h := List.head?_dropWhile_not (· = slash) t
  unfold isAbsolute
  cases e : (t.dropWhile (· = slash)).head? with
  | none => rfl
  | some c => simpa [e] using h

/-! ## Prefixes -/

theorem startsWith_toPath {l m : Location α} (hl : Named l) (hm : Named m) :
    l.toPath.startsWith m.toPath = true ↔ m <+: l := by
  rw [startsWith, components_toPath hl, components_toPath hm, List.isPrefixOf_iff_prefix]
  rw [Location.components, Location.components, List.cons_prefix_cons]
  simp only [true_and]
  exact List.prefix_map_iff_of_injective fun s t e => Component.name.inj e

/-- Only an absolute path begins with the steps of an absolute path. -/
theorem isAbsolute_of_startsWith {p base : Path α} (hb : base.isAbsolute = true)
    (h : p.startsWith base = true) : p.isAbsolute = true := by
  rw [startsWith, components_of_isAbsolute hb, List.isPrefixOf_iff_prefix] at h
  obtain ⟨-, hp⟩ | hhere | hs := mem_components_cases (h.subset List.mem_cons_self)
  · exact hp
  · cases hhere
  · exact (isStep_of_mem_steps hs).elim

/-- An absolute path lies under another if its location goes on from that of the other. -/
theorem liesUnder_iff {p base : Path α} (hp : p.isAbsolute = true) (hb : base.isAbsolute = true) :
    p.liesUnder base = true ↔ base.resolve [] <+: p.resolve [] := by
  rw [liesUnder, normalize_of_isAbsolute hp, normalize_of_isAbsolute hb]
  exact startsWith_toPath (named_resolve hp []) (named_resolve hb [])

end Path

end Rehome
