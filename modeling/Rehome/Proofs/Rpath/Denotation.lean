import Rehome.Proofs.Path.Letters
import Rehome.Proofs.Path.Route
import Rehome.Rpath.Origin

/-!
# What entries denote

A loader puts the directory of the binary in the place of the marker and searches the path that
results. `place binary entry` is that path in normal form, and `denote binary entry` what it reads
as. Expanding an entry gives what it denotes (`expandEntry_eq`), and writing an entry with the
marker does not change what it denotes (`place_anchorEntry`). So absolute entries are written alike
with the marker just if they lead to the same place (`anchorEntry_eq_iff_of_liesBelow`).
-/

namespace Rehome.Rpath

open Rehome.Path Alphabet Component

variable {α : Type} [Alphabet α] [DecidableEq α]

/-- Where the text behind the marker leads from the directory of `start`. It is relative, however
many slashes it begins with. -/
def placeBehind (start : Path α) (rest : Text) : Location α :=
  (Path.ofText (rest.dropWhile (· = '/'))).resolve (start.normalize.resolve []).dropLast

/-- What a loader searches for an entry of a binary at `start`: for an entry with the marker what
the text behind it leads to, and for an absolute one what it leads to itself. A relative entry has
no meaning of its own. -/
def place (start : Path α) (entry : Text) : Path α :=
  match afterMarker? entry with
  | some rest => (placeBehind start rest).toPath
  | none =>
    let p : Path α := .ofText entry
    if p.isAbsolute then (p.resolve []).toPath else p

/-- What the place that an entry stands for reads as. -/
def denote (start : Path α) (entry : Text) : Text := (place start entry).toText

/-! ## Markers -/

theorem after?_eq_some_iff {beginning entry rest : Text} :
    after? beginning entry = some rest
      ↔ entry = beginning ++ rest ∧ (rest = [] ∨ rest.head? = some '/') := by
  unfold after?
  by_cases h : beginning <+: entry
  · obtain ⟨tail, rfl⟩ := h
    simp only [List.isPrefixOf_iff_prefix.2 (List.prefix_append beginning tail), if_true,
      List.drop_left, List.append_cancel_left_eq, Bool.or_eq_true, List.isEmpty_iff,
      decide_eq_true_eq]
    constructor
    · intro hr
      split at hr
      · cases hr; exact ⟨rfl, ‹_›⟩
      · cases hr
    · rintro ⟨rfl, hr⟩
      rw [if_pos hr]
  · rw [if_neg (by simpa using h)]
    simp only [reduceCtorEq, false_iff]
    rintro ⟨rfl, -⟩
    exact h (List.prefix_append beginning rest)

/-- Whether an entry is the marker, in one of its spellings, with `rest` behind it, which is nothing
or begins with a slash. -/
def Marked (entry rest : Text) : Prop :=
  (entry = bracedMarker ++ rest ∨ entry = marker ++ rest) ∧ (rest = [] ∨ rest.head? = some '/')

theorem afterMarker?_eq_some_iff {entry rest : Text} :
    afterMarker? entry = some rest ↔ Marked entry rest := by
  rw [afterMarker?, Option.orElse_eq_orElse, Option.orElse_eq_or, Option.or_eq_some_iff,
    after?_eq_some_iff, after?_eq_some_iff]
  constructor
  · rintro (⟨e, hr⟩ | ⟨-, e, hr⟩)
    · exact ⟨.inl e, hr⟩
    · exact ⟨.inr e, hr⟩
  · rintro ⟨e | e, hr⟩
    · exact .inl ⟨e, hr⟩
    · refine .inr ⟨?_, e, hr⟩
      rw [Option.eq_none_iff_forall_not_mem]
      intro tail ht
      -- the two spellings differ in their second character
      have hb := (after?_eq_some_iff.1 ht).1
      rw [e] at hb
      cases hb

theorem afterMarker?_of_isAbsolute {entry : Text}
    (h : (Path.ofText entry : Path α).isAbsolute = true) : afterMarker? entry = none := by
  rw [isAbsolute_ofText_iff] at h
  rw [Option.eq_none_iff_forall_not_mem]
  intro rest hr
  rcases (afterMarker?_eq_some_iff.1 hr).1 with rfl | rfl <;> cases h

theorem place_of_isAbsolute (start : Path α) {entry : Text}
    (h : (Path.ofText entry : Path α).isAbsolute = true) :
    place start entry = (Path.ofText entry).normalize := by
  simp only [place, afterMarker?_of_isAbsolute h, h, if_true, normalize_of_isAbsolute h]

theorem denote_of_isAbsolute (start : Path) {entry : Text}
    (h : (Path.mk entry).isAbsolute = true) :
    denote start entry = (Path.mk entry).normalize.text :=
  congrArg Path.text (place_of_isAbsolute start h)

/-! ## Expanding -/

theorem steps_dropWhile (rest : Text) :
    (Path.ofText (rest.dropWhile (· = '/')) : Path α).steps = (Path.ofText rest).steps := by
  induction rest with
  | nil => rfl
  | cons c rest ih =>
    by_cases hc : c = '/'
    · rw [hc, List.dropWhile_cons_of_pos (by simp), ih, Path.ofText, Path.ofText, ofText_cons_slash,
        steps_slash]
    · rw [List.dropWhile_cons_of_neg (by simpa using hc)]

theorem isAbsolute_dropWhile (rest : Text) :
    (Path.ofText (rest.dropWhile (· = '/')) : Path α).isAbsolute = false := by
  have htext : (Path.mk (rest.dropWhile (· = '/'))).isAbsolute = false :=
    isAbsolute_dropWhile_slash rest
  rw [Bool.eq_false_iff, ne_eq, isAbsolute_ofText_iff, htext]
  exact Bool.false_ne_true

section

variable {start : Path α} (h : start.isAbsolute = true)

include h

theorem placeBehind_eq (rest : Text) :
    placeBehind start rest
      = (Path.ofText rest : Path α).steps.foldl Location.step (start.resolve []).dropLast := by
  rw [placeBehind, normalize_of_isAbsolute h, resolve_toPath (named_resolve h []),
    resolve_of_relative (isAbsolute_dropWhile rest), steps_dropWhile]

theorem named_placeBehind (rest : Text) : Location.Named (placeBehind start rest) := by
  rw [placeBehind_eq h]
  exact (named_resolve h []).dropLast.foldl_step fun c hc => isStep_of_mem_steps hc

theorem placeFrom_eq (rest : Text) : placeFrom start rest = (placeBehind start rest).toPath := by
  have hd := isAbsolute_directory h
  have hrel := isAbsolute_dropWhile (α := α) rest
  have ha : (start.directory.join (.ofText (rest.dropWhile (· = '/')))).isAbsolute = true := by
    rw [isAbsolute_join, hd]
    rfl
  rw [placeFrom, normalize_of_isAbsolute ha, resolve_join hd hrel, steps_dropWhile,
    resolve_directory h, placeBehind_eq h]

/-- A marked entry expands to what the place behind the marker reads as. -/
theorem expandEntry_of_afterMarker? {entry rest : Text} (hr : afterMarker? entry = some rest) :
    expandEntry start entry = (placeBehind start rest).toPath.toText := by
  simp only [expandEntry, hr, placeFrom_eq h]

/-- Expanding an entry gives what it denotes, and leaves alone one without the marker. -/
theorem expandEntry_eq (entry : Text) :
    expandEntry start entry
      = if (afterMarker? entry).isSome then denote start entry else entry := by
  cases hr : afterMarker? entry with
  | none => simp [expandEntry, hr]
  | some rest => simp [expandEntry_of_afterMarker? h hr, denote, place, hr]

/-- No entry is marked any more once it has been expanded. -/
theorem afterMarker?_expandEntry (entry : Text) :
    afterMarker? (expandEntry start entry) = none := by
  cases hr : afterMarker? entry with
  | none => rw [expandEntry_of_none hr, hr]
  | some rest =>
    rw [expandEntry_of_afterMarker? h hr, Location.toText_toPath]
    exact afterMarker?_of_isAbsolute (α := Char) (Location.isAbsolute_toPath _)

end

/-! ## Anchoring -/

/-- A route, written behind the marker. -/
def markRoute : List (Component α) → Text
  | [] => marker
  | c :: cs => marker ++ '/' :: (ofComponents (c :: cs)).toText

/-- A way of some steps is written like the route of these steps. -/
theorem markWay_ofComponents {cs : List (Component α)} (hs : ∀ c ∈ cs, c.IsStep) :
    markWay (ofComponents cs) = markRoute cs := by
  cases cs with
  | nil => exact if_pos (.inl rfl)
  | cons c cs =>
    have hc := components_ofComponents hs
    refine if_neg ?_
    rintro (hempty | hhere)
    · have he : ofComponents (c :: cs) = ⟨[]⟩ := congrArg Path.mk hempty
      rw [he] at hc
      cases hc
    · rw [hc, List.cons.injEq] at hhere
      obtain ⟨rfl, -⟩ := hhere
      exact hs .here List.mem_cons_self

/-- A route of texts that is written behind the marker can be read off again. -/
theorem afterMarker?_markRoute {cs : List (Component α)} (hs : ∀ c ∈ cs, c.IsStep)
    (ht : ∀ c ∈ cs, IsText c.text) :
    ∃ rest, afterMarker? (markRoute cs) = some rest ∧ (Path.ofText rest : Path α).steps = cs := by
  cases cs with
  | nil => exact ⟨[], rfl, by simp [Path.steps, Path.pieces, ofPiece?]⟩
  | cons c cs =>
    refine ⟨'/' :: (ofComponents (c :: cs)).toText, ?_, ?_⟩
    · exact afterMarker?_eq_some_iff.2 ⟨.inr rfl, .inr rfl⟩
    · have htext : IsText (ofComponents (c :: cs)).text := by
        rw [ofComponents_of_isStep hs]
        exact isText_joinWith (List.forall_mem_map.2 ht)
      rw [Path.ofText, ofText_cons_slash, steps_slash, htext, ofComponents_of_isStep hs]
      exact steps_joinWith hs

/-- The route from the directory of `start` to where an absolute entry leads. -/
def routeTo (start : Path α) (entry : Text) : List (Component α) :=
  Location.route (start.resolve []).dropLast ((Path.ofText entry : Path α).resolve [])

section

variable {entry : Text} (ha : (Path.ofText entry : Path α).isAbsolute = true) (start : Path α)

include ha

theorem isStep_of_mem_routeTo : ∀ c ∈ routeTo start entry, c.IsStep := fun _ hc =>
  Location.isStep_of_mem_route (named_resolve ha []) hc

/-- A route to a text is written with texts. -/
theorem isText_of_mem_routeTo : ∀ c ∈ routeTo start entry, IsText c.text := by
  intro c hc
  obtain ⟨ups, names, hsuffix, e⟩ := Location.exists_route_eq (start.resolve []).dropLast
    ((Path.ofText entry).resolve [])
  rw [routeTo, e] at hc
  obtain hc | hc := List.mem_append.1 hc
  · rw [List.eq_of_mem_replicate hc]
    exact isText_up
  · obtain ⟨name, hname, rfl⟩ := List.mem_map.1 hc
    exact isText_of_mem_resolve ha (isText_ofText entry) name (hsuffix.subset hname)

end

/-- Whether an entry is to be written with the marker: it is absolute and lies below the root. -/
def liesBelow (root : Path α) (entry : Text) : Bool :=
  (Path.ofText entry : Path α).isAbsolute && (Path.ofText entry).liesUnder root

variable {start root : Path α} {entry other : Text}

theorem isAbsolute_of_liesBelow (hl : liesBelow root entry = true) :
    (Path.ofText entry : Path α).isAbsolute = true :=
  (Bool.and_eq_true_iff.1 hl).1

/-- The location of an entry below the root goes on from that of the root. -/
theorem exists_resolve_of_liesBelow (hr : root.isAbsolute = true)
    (hl : liesBelow root entry = true) :
    ∃ rest, Location.Named rest ∧ (Path.ofText entry).resolve [] = root.resolve [] ++ rest := by
  have ha := isAbsolute_of_liesBelow hl
  obtain ⟨rest, hrest⟩ := (liesUnder_iff ha hr).1 (Bool.and_eq_true_iff.1 hl).2
  refine ⟨rest, fun t ht => named_resolve ha [] t ?_, hrest.symm⟩
  rw [← hrest]
  exact List.mem_append_right _ ht

variable [Router α]

theorem anchorEntry_of_not_liesBelow (hl : liesBelow root entry = false) :
    anchorEntry start root entry = entry :=
  if_neg (Bool.eq_false_iff.1 hl)

section

variable (h : start.isAbsolute = true)

include h

theorem anchorEntry_of_liesBelow (hl : liesBelow root entry = true) :
    anchorEntry start root entry = markRoute (routeTo start entry) := by
  have ha := isAbsolute_of_liesBelow hl
  have hway := Router.route?_of_isAbsolute ha (isAbsolute_directory h)
  rw [normalize_directory h, resolve_directory h] at hway
  refine (if_pos hl).trans ?_
  rw [hway]
  exact markWay_ofComponents (isStep_of_mem_routeTo ha start)

/-- Entries that lead to the same place are written alike with the marker, if they are at all. -/
theorem anchorEntry_congr (he : (Path.ofText entry : Path α).isAbsolute = true)
    (hl : liesBelow root other = true)
    (heq : (Path.ofText entry : Path α).normalize = (Path.ofText other).normalize) :
    anchorEntry start root entry = anchorEntry start root other := by
  have ho := isAbsolute_of_liesBelow hl
  have hl' : liesBelow root entry = true := by
    simpa [liesBelow, liesUnder, he, heq] using (Bool.and_eq_true_iff.1 hl).2
  have hloc : (Path.ofText entry : Path α).resolve [] = (Path.ofText other).resolve [] := by
    rw [normalize_of_isAbsolute he, normalize_of_isAbsolute ho] at heq
    exact toPath_inj (named_resolve he []) (named_resolve ho []) heq
  rw [anchorEntry_of_liesBelow h hl', anchorEntry_of_liesBelow h hl, routeTo, routeTo, hloc]

/-- The route to an entry below the root can be read off behind the marker. -/
theorem afterMarker?_anchorEntry (hl : liesBelow root entry = true) :
    ∃ rest, afterMarker? (anchorEntry start root entry) = some rest
      ∧ (Path.ofText rest).steps = routeTo start entry := by
  have ha := isAbsolute_of_liesBelow hl
  rw [anchorEntry_of_liesBelow h hl]
  exact afterMarker?_markRoute (isStep_of_mem_routeTo ha start) (isText_of_mem_routeTo ha start)

/-- Writing an entry with the marker does not change what it denotes. -/
theorem place_anchorEntry (root : Path α) (entry : Text) :
    place start (anchorEntry start root entry) = place start entry := by
  cases hl : liesBelow root entry with
  | false => rw [anchorEntry_of_not_liesBelow hl]
  | true =>
    have ha := isAbsolute_of_liesBelow hl
    obtain ⟨rest, hr, hs⟩ := afterMarker?_anchorEntry h hl
    have hroute := Location.foldl_step_route [] ((start.resolve []).dropLast)
      ((Path.ofText entry).resolve [])
    simp only [List.nil_append] at hroute
    rw [place_of_isAbsolute start ha, normalize_of_isAbsolute ha]
    simp only [place, hr]
    rw [placeBehind_eq h, hs, routeTo, hroute]

theorem denote_anchorEntry (root : Path α) (entry : Text) :
    denote start (anchorEntry start root entry) = denote start entry :=
  congrArg Path.toText (place_anchorEntry h root entry)

theorem isSome_afterMarker?_anchorEntry (hl : liesBelow root entry = true) :
    (afterMarker? (anchorEntry start root entry)).isSome = true := by
  obtain ⟨rest, hr, -⟩ := afterMarker?_anchorEntry h hl
  rw [hr]
  rfl

/-- Entries that are written alike with the marker lead to the same place. -/
theorem normalize_eq_of_anchorEntry_eq (he : (Path.ofText entry : Path α).isAbsolute = true)
    (ho : (Path.ofText other : Path α).isAbsolute = true)
    (heq : anchorEntry start root entry = anchorEntry start root other) :
    (Path.ofText entry : Path α).normalize = (Path.ofText other).normalize := by
  rw [← place_of_isAbsolute start he, ← place_anchorEntry h root, heq, place_anchorEntry h,
    place_of_isAbsolute start ho]

/-- Entries below the root are written alike just if they lead to the same place. -/
theorem anchorEntry_eq_iff_of_liesBelow (hl : liesBelow root entry = true)
    (ho : liesBelow root other = true) :
    anchorEntry start root entry = anchorEntry start root other
      ↔ (Path.ofText entry : Path α).normalize = (Path.ofText other).normalize :=
  ⟨normalize_eq_of_anchorEntry_eq h (isAbsolute_of_liesBelow hl) (isAbsolute_of_liesBelow ho),
    anchorEntry_congr h (isAbsolute_of_liesBelow hl) ho⟩

/-- What is written with the marker is not absolute, and so not below the root. -/
theorem liesBelow_anchorEntry (hl : liesBelow root entry = true) :
    liesBelow root (anchorEntry start root entry) = false := by
  refine Bool.eq_false_iff.2 fun hl' => ?_
  have hm := isSome_afterMarker?_anchorEntry h hl
  rw [afterMarker?_of_isAbsolute (isAbsolute_of_liesBelow hl')] at hm
  cases hm

/-- An entry that is written with the marker is not written anew. -/
theorem anchorEntry_anchorEntry (root : Path α) (entry : Text) :
    anchorEntry start root (anchorEntry start root entry) = anchorEntry start root entry := by
  cases hl : liesBelow root entry with
  | false => rw [anchorEntry_of_not_liesBelow hl, anchorEntry_of_not_liesBelow hl]
  | true => exact anchorEntry_of_not_liesBelow (liesBelow_anchorEntry h hl)

end

end Rehome.Rpath
