import Rehome.Proofs.Path.Letters
import Rehome.Proofs.Path.Route

/-!
# Texts in other letters

A path that is a text can be written in the letters of any alphabet, as characters or as the bytes
of its UTF-8. It takes the same steps (`components_transcribed`), so what is done with paths comes to
the same: their normal forms (`normalize_transcribed`), what lies behind a prefix
(`below?_transcribed`), and the ways between them (`route?_transcribed`).
-/

namespace Rehome

open Alphabet

variable {α : Type} [Alphabet α]

namespace Component

/-- The step with its name in other letters. -/
def transcribed : Component → Component α
  | root => root
  | here => here
  | up => up
  | name t => name (ofText t)

theorem transcribed_injective : Function.Injective (transcribed (α := α))
  | root, root, _ => rfl
  | here, here, _ => rfl
  | up, up, _ => rfl
  | name _, name _, h => congrArg name (ofText_injective (name.inj h))

theorem text_transcribed (c : Component) : (c.transcribed : Component α).text = ofText c.text := by
  cases c with
  | root => exact ofText_slash.symm
  | here => exact ofText_dot.symm
  | up => exact ofText_dots.symm
  | name t => rfl

theorem after_transcribed (cs : List Component) (c : Component) :
    after (cs.map transcribed) (c.transcribed : Component α) = (after cs c).map transcribed := by
  cases c with
  | here => rfl
  | up =>
    cases cs with
    | nil => rfl
    | cons d ds => cases d <;> rfl
  | _ => rfl

variable [DecidableEq α]

theorem ofPiece?_ofText (piece : Text) :
    ofPiece? (ofText piece : List α) = (ofPiece? piece).map transcribed := by
  simp only [ofPiece?, ofText_eq_nil_iff, ofText_eq_dot_iff, ofText_eq_dots_iff, dot_char]
  split
  · rfl
  · split <;> rfl

theorem isIdle_ofText (piece : Text) : isIdle (ofText piece : List α) = isIdle piece := by
  simp only [isIdle, ofText_eq_nil_iff, ofText_eq_dot_iff, dot_char]

theorem route_transcribed (source target : List Component) :
    route (source.map transcribed) (target.map (transcribed (α := α)))
      = (route source target).map transcribed := by
  induction source generalizing target with
  | nil => rfl
  | cons s ss ih =>
    cases target with
    | nil => simp [route, transcribed, Function.comp_def]
    | cons t ts =>
      simp only [List.map_cons, route, transcribed_injective.eq_iff]
      split
      · exact ih ts
      · simp [transcribed, Function.comp_def]

end Component

namespace Path

/-- The path in other letters. -/
abbrev transcribed (p : Path) : Path α := ofText p.text

theorem toText_transcribed (p : Path) : (p.transcribed : Path α).toText = p.text :=
  toText_ofText p.text

theorem ofComponents_transcribed (cs : List Component) :
    (ofComponents (cs.map Component.transcribed) : Path α) = (ofComponents cs).transcribed := by
  have hjoin : ∀ ds : List Component,
      Text.joinWith slash ((ds.map Component.transcribed).map (Component.text (α := α)))
        = Alphabet.ofText (Text.joinWith '/' (ds.map Component.text)) := by
    intro ds
    rw [ofText_joinWith, List.map_map, List.map_map]
    exact congrArg _ (List.map_congr_left fun c _ => Component.text_transcribed c)
  cases cs with
  | nil => exact congrArg Path.mk (hjoin [])
  | cons c cs =>
    cases c with
    | root =>
      refine congrArg Path.mk ?_
      exact (congrArg _ (hjoin cs)).trans (ofText_cons_slash _).symm
    | here => exact congrArg Path.mk (hjoin (.here :: cs))
    | up => exact congrArg Path.mk (hjoin (.up :: cs))
    | name t => exact congrArg Path.mk (hjoin (.name t :: cs))

variable [DecidableEq α] (p q : Path)

theorem pieces_transcribed : (p.transcribed : Path α).pieces = p.pieces.map Alphabet.ofText :=
  splitOn_ofText p.text

theorem isAbsolute_transcribed : (p.transcribed : Path α).isAbsolute = p.isAbsolute :=
  Bool.eq_iff_iff.2 isAbsolute_ofText_iff

theorem steps_transcribed :
    (p.transcribed : Path α).steps = p.steps.map Component.transcribed := by
  rw [steps, pieces_transcribed, List.filterMap_map, steps, List.map_filterMap]
  exact congrArg (List.filterMap · _) (funext Component.ofPiece?_ofText)

theorem lead?_transcribed :
    (p.transcribed : Path α).lead? = p.lead?.map Component.transcribed := by
  have hfirst : (p.transcribed : Path α).pieces.head? = some [dot]
      ↔ p.pieces.head? = some ['.'] := by
    rw [pieces_transcribed, List.head?_map, Option.map_eq_some_iff]
    simp only [ofText_eq_dot_iff, exists_eq_right]
  simp only [lead?, isAbsolute_transcribed, hfirst, dot_char]
  split
  · rfl
  · split <;> rfl

theorem components_transcribed :
    (p.transcribed : Path α).components = p.components.map Component.transcribed := by
  rw [components, steps_transcribed, lead?_transcribed, components, List.map_append,
    Option.toList_map]

theorem startsWith_transcribed :
    (p.transcribed : Path α).startsWith q.transcribed = p.startsWith q := by
  rw [startsWith, components_transcribed, components_transcribed, startsWith, Bool.eq_iff_iff,
    List.isPrefixOf_iff_prefix, List.isPrefixOf_iff_prefix]
  exact List.prefix_map_iff_of_injective Component.transcribed_injective

theorem join_transcribed :
    (p.transcribed : Path α).join q.transcribed = (p.join q).transcribed := by
  simp only [join, isAbsolute_transcribed, ofText_eq_nil_iff, getLast?_ofText_iff, slash_char]
  split
  · rfl
  · split
    · exact congrArg Path.mk (ofText_append _ _).symm
    · rw [← ofText_cons_slash, ← ofText_append]

theorem normalComponents_transcribed :
    (p.transcribed : Path α).normalComponents
      = p.normalComponents.map Component.transcribed := by
  have hafter : ∀ cs ds : List Component,
      (ds.map Component.transcribed).foldl Component.after (cs.map (Component.transcribed (α := α)))
        = (ds.foldl Component.after cs).map Component.transcribed := by
    intro cs ds
    induction ds generalizing cs with
    | nil => rfl
    | cons d ds ih =>
      rw [List.map_cons, List.foldl_cons, Component.after_transcribed, ih, List.foldl_cons]
  rw [normalComponents, components_transcribed, normalComponents, List.map_reverse]
  exact congrArg List.reverse (hafter [] p.components)

theorem normalize_transcribed :
    (p.transcribed : Path α).normalize = p.normalize.transcribed := by
  rw [normalize, normalComponents_transcribed, normalize]
  cases p.normalComponents with
  | nil => exact congrArg Path.mk ofText_dot.symm
  | cons c cs => exact ofComponents_transcribed (c :: cs)

theorem liesUnder_transcribed :
    (p.transcribed : Path α).liesUnder q.transcribed = p.liesUnder q := by
  rw [liesUnder, normalize_transcribed, normalize_transcribed, startsWith_transcribed, liesUnder]

theorem directory_transcribed :
    (p.transcribed : Path α).directory = p.directory.transcribed := by
  rw [directory, normalComponents_transcribed, ← List.map_dropLast, directory]
  cases p.normalComponents.dropLast with
  | nil => exact congrArg Path.mk ofText_slash.symm
  | cons c cs => exact ofComponents_transcribed (c :: cs)

/-! ### What lies behind a prefix -/

theorem dropSteps_transcribed (count : Nat) (pieces : List Text) :
    dropSteps count (pieces.map (Alphabet.ofText (α := α)))
      = (dropSteps count pieces).map Alphabet.ofText := by
  induction pieces generalizing count with
  | nil => cases count <;> rfl
  | cons piece pieces ih =>
    cases count with
    | zero => rfl
    | succ count =>
      simp only [List.map_cons, dropSteps, Component.isIdle_ofText]
      split
      · exact ih (count + 1)
      · exact ih count

theorem trimRight_transcribed (pieces : List Text) :
    trimRight Component.isIdle (pieces.map (Alphabet.ofText (α := α)))
      = (trimRight Component.isIdle pieces).map Alphabet.ofText := by
  induction pieces with
  | nil => rfl
  | cons piece pieces ih =>
    rw [List.map_cons, trimRight, ih, trimRight, Component.isIdle_ofText]
    cases trimRight Component.isIdle pieces with
    | nil => cases Component.isIdle piece <;> rfl
    | cons t ts => rfl

theorem trim_transcribed (pieces : List Text) :
    trim Component.isIdle (pieces.map (Alphabet.ofText (α := α)))
      = (trim Component.isIdle pieces).map Alphabet.ofText := by
  have hidle : (Component.isIdle ∘ Alphabet.ofText (α := α)) = Component.isIdle :=
    funext Component.isIdle_ofText
  rw [trim, List.dropWhile_map, hidle, trimRight_transcribed, trim]

theorem trimEnd_transcribed : (p.transcribed : Path α).trimEnd = p.trimEnd.transcribed := by
  have hjoin : ∀ pieces : List Text,
      Path.mk (Text.joinWith slash (pieces.map (Alphabet.ofText (α := α))))
        = (Path.mk (Text.joinWith '/' pieces)).transcribed :=
    fun pieces => congrArg Path.mk (ofText_joinWith pieces).symm
  rw [trimEnd, lead?_transcribed, pieces_transcribed, trimEnd]
  cases p.lead? with
  | none =>
    simp only [Option.map_none, trimRight_transcribed]
    exact hjoin _
  | some c =>
    cases p.pieces with
    | nil => exact hjoin []
    | cons first rest =>
      simp only [Option.map_some, List.map_cons, trimRight_transcribed]
      generalize trimRight Component.isIdle rest = others
      cases first with
      | nil =>
        cases others with
        | nil => simp [ofText_slash]
        | cons t ts => simpa using hjoin ([] :: t :: ts)
      | cons c cs =>
        obtain ⟨a, as, e⟩ := List.exists_cons_of_ne_nil
          (mt (ofText_eq_nil_iff (α := α)).1 (List.cons_ne_nil c cs))
        have h := hjoin ((c :: cs) :: others)
        rw [List.map_cons, e] at h
        simpa [e] using h

theorem below?_transcribed :
    (p.transcribed : Path α).below? q.transcribed = (p.below? q).map transcribed := by
  simp only [below?, startsWith_transcribed, components_transcribed, List.map_eq_nil_iff,
    steps_transcribed, List.length_map, pieces_transcribed, dropSteps_transcribed,
    trim_transcribed, ← ofText_joinWith, trimEnd_transcribed]
  split
  · split <;> rfl
  · rfl

/-! ### Ways -/

/-- Between absolute paths in normal form, routers find the same way whatever the letters are. -/
theorem route?_transcribed [Router α] [Router Char] {target source : Path}
    (ht : target.isAbsolute = true) (ht' : target.normalize = target)
    (hs : source.isAbsolute = true) (hs' : source.normalize = source) :
    Router.route? (target.transcribed : Path α) source.transcribed
      = (Router.route? target source).map transcribed := by
  rw [Router.route?_of_normal ht ht' hs hs', Router.route?_of_normal, components_transcribed,
    components_transcribed, Component.route_transcribed, ofComponents_transcribed, Option.map_some]
  · rw [isAbsolute_transcribed, ht]
  · rw [normalize_transcribed, ht']
  · rw [isAbsolute_transcribed, hs]
  · rw [normalize_transcribed, hs']

end Path

end Rehome
