import Rehome.Proofs.Path.Below
import Rehome.Proofs.Path.Resolution

/-!
# How normal forms are written

A text is a normal form just if it writes each step in one way (`normalize_eq_self_iff`): there is
no `.`, no slash that could be left out, and no `..` that could be. So a text cannot be told from
its normal form by where it leads, and normal forms can be told apart (`normalize_canonical`).
-/

namespace Rehome

open Alphabet Component

variable {α : Type}

theorem Text.joinWith_append {separator : α} {front back : List (List α)} (hf : front ≠ [])
    (hb : back ≠ []) :
    joinWith separator (front ++ back)
      = joinWith separator front ++ separator :: joinWith separator back := by
  unfold joinWith
  induction front with
  | nil => exact absurd rfl hf
  | cons t front ih =>
    by_cases hne : front = []
    · rw [hne, List.singleton_append, List.intercalate_cons_of_ne_nil hb]
      simp
    · have hlong : front ++ back ≠ [] := List.append_ne_nil_of_left_ne_nil hne back
      rw [List.cons_append, List.intercalate_cons_of_ne_nil hlong, ih hne,
        List.intercalate_cons_of_ne_nil hne]
      simp

namespace Path

variable [Alphabet α] [DecidableEq α] {p : Path α} {cs : List (Component α)}

omit [Alphabet α] [DecidableEq α] in
theorem text_eq_iff {p q : Path α} : p.text = q.text ↔ p = q :=
  ⟨congrArg Path.mk, congrArg Path.text⟩

theorem text_eq_joinWith (p : Path α) : p.text = Text.joinWith slash p.pieces :=
  (List.intercalate_splitOn slash).symm

theorem pieces_ne_nil (p : Path α) : p.pieces ≠ [] := List.splitOn_ne_nil slash p.text

/-- A slash behind another one leaves an empty piece between them. -/
theorem doubled_slash_iff :
    [slash, slash] <:+: p.text
      ↔ ∃ front back, front ≠ [] ∧ back ≠ [] ∧ p.pieces = front ++ [] :: back := by
  constructor
  · rintro ⟨s, t, h⟩
    refine ⟨(Path.mk s).pieces, (Path.mk t).pieces, pieces_ne_nil _, pieces_ne_nil _, ?_⟩
    have htext : p.text = s ++ slash :: ([] ++ slash :: t) := by simp [← h]
    rw [pieces, htext, List.splitOn_append_cons_self, List.splitOn_append_cons_self]
    rfl
  · rintro ⟨front, back, hf, hb, h⟩
    refine ⟨Text.joinWith slash front, Text.joinWith slash back, ?_⟩
    have hrest : Text.joinWith slash ([] :: back) = slash :: Text.joinWith slash back := by
      rw [Text.joinWith, List.intercalate_cons_of_ne_nil hb]
      rfl
    rw [text_eq_joinWith, h, Text.joinWith_append hf (List.cons_ne_nil _ _), hrest]
    simp

/-- A slash at the end leaves an empty piece behind it. -/
theorem slash_at_end_iff :
    p.text.getLast? = some slash ↔ ∃ front, front ≠ [] ∧ p.pieces = front ++ [[]] := by
  constructor
  · intro h
    obtain ⟨s, hs⟩ := List.getLast?_eq_some_iff.1 h
    refine ⟨(Path.mk s).pieces, pieces_ne_nil _, ?_⟩
    rw [pieces, hs, List.splitOn_append_cons_self]
    rfl
  · rintro ⟨front, hf, h⟩
    rw [text_eq_joinWith, h, Text.joinWith_append hf (List.cons_ne_nil _ _)]
    exact List.getLast?_concat

/-- A path is absolute if an empty piece comes first and is not all. -/
theorem isAbsolute_iff_pieces :
    p.isAbsolute = true ↔ ∃ rest, rest ≠ [] ∧ p.pieces = [] :: rest := by
  constructor
  · intro h
    obtain ⟨t, ht⟩ := List.head?_eq_some_iff.1 (of_decide_eq_true h)
    refine ⟨(Path.mk t).pieces, pieces_ne_nil _, ?_⟩
    rw [pieces, ht, ← List.nil_append (slash :: t), List.splitOn_append_cons_self]
    rfl
  · rintro ⟨rest, hrest, h⟩
    have htext : p.text = slash :: Text.joinWith slash rest := by
      rw [text_eq_joinWith, h, Text.joinWith, List.intercalate_cons_of_ne_nil hrest]
      rfl
    rw [isAbsolute, htext]
    exact decide_eq_true rfl

/-- Whether a text writes each step in one way only: `.` stands for itself alone, slashes stand
singly and behind nothing but the root at the end, and `..` stands at the front of relative paths
only. -/
structure IsCanonical (p : Path α) : Prop where
  ne_nil : p.text ≠ []
  no_here : [dot] ∈ p.pieces → p.text = [dot]
  no_doubled_slash : ¬ [slash, slash] <:+: p.text
  no_slash_at_end : p.text.getLast? = some slash → p.text = [slash]
  no_up_of_isAbsolute : p.isAbsolute = true → [dot, dot] ∉ p.pieces
  ups_first : ∃ count rest, p.pieces = List.replicate count [dot, dot] ++ rest ∧ [dot, dot] ∉ rest

theorem isCanonical_here : (Path.mk [dot] : Path α).IsCanonical where
  ne_nil := List.cons_ne_nil _ _
  no_here _ := rfl
  no_doubled_slash h := absurd h.length_le (by simp)
  no_slash_at_end h := absurd (Option.some.inj h).symm slash_ne_dot
  no_up_of_isAbsolute h := by
    rw [isAbsolute_here] at h
    cases h
  ups_first := ⟨0, [[dot]], pieces_here, by simp⟩

theorem pieces_root : (Path.mk [slash] : Path α).pieces = [[], []] :=
  pieces_append_slash [] []

theorem isCanonical_root : (Path.mk [slash] : Path α).IsCanonical where
  ne_nil := List.cons_ne_nil _ _
  no_here h := by simp [pieces_root] at h
  no_doubled_slash h := absurd h.length_le (by simp)
  no_slash_at_end _ := rfl
  no_up_of_isAbsolute _ := by simp [pieces_root]
  ups_first := ⟨0, [[], []], pieces_root, by simp⟩

/-- Behind its first piece, a text with single slashes has no empty piece. -/
theorem nil_notMem_tail_iff :
    [] ∉ p.pieces.tail ↔ ¬ [slash, slash] <:+: p.text ∧ p.text.getLast? ≠ some slash := by
  rw [doubled_slash_iff, ne_eq, slash_at_end_iff, ← not_or]
  refine not_congr ⟨fun h => ?_, ?_⟩
  · obtain ⟨front, back, htail⟩ := List.append_of_mem h
    obtain ⟨first, rest, hp⟩ := List.exists_cons_of_ne_nil (pieces_ne_nil p)
    rw [hp, List.tail_cons] at htail
    have hpieces : p.pieces = (first :: front) ++ [] :: back := by rw [hp, htail]; rfl
    by_cases hb : back = []
    · exact .inr ⟨first :: front, List.cons_ne_nil _ _, hb ▸ hpieces⟩
    · exact .inl ⟨first :: front, back, List.cons_ne_nil _ _, hb, hpieces⟩
  · rintro (⟨front, back, hf, -, h⟩ | ⟨front, hf, h⟩)
    · rw [h, List.tail_append_of_ne_nil hf]
      exact List.mem_append_right _ List.mem_cons_self
    · rw [h, List.tail_append_of_ne_nil hf]
      exact List.mem_append_right _ List.mem_cons_self

theorem isCanonical_toPath {loc : Location α} (h : Location.Named loc) :
    loc.toPath.IsCanonical := by
  by_cases hne : loc = []
  · subst hne
    exact isCanonical_root
  have hp := Location.pieces_toPath h hne
  have hup : [dot, dot] ∉ loc.toPath.pieces := by
    rw [hp, List.mem_cons, not_or]
    exact ⟨List.cons_ne_nil _ _, fun hm => (h _ hm).2.2.1 rfl⟩
  have htail : [] ∉ loc.toPath.pieces.tail := by
    rw [hp]
    exact fun hm => (h _ hm).1 rfl
  rw [nil_notMem_tail_iff] at htail
  refine ⟨List.cons_ne_nil _ _, fun hm => ?_, htail.1, fun hl => absurd hl htail.2, fun _ => hup,
    ⟨0, _, rfl, hup⟩⟩
  rw [hp, List.mem_cons] at hm
  exact absurd rfl (h _ (hm.resolve_left (List.cons_ne_nil _ _))).2.1

section

variable {count : Nat} {names : List (List α)}

omit [DecidableEq α] in
theorem isStep_of_parents (count : Nat) (h : Location.Named names) :
    ∀ c ∈ List.replicate count Component.up ++ names.map .name, c.IsStep := by
  refine List.forall_mem_append.2 ⟨fun c hc => ?_, Location.isStep_of_named h⟩
  rw [List.eq_of_mem_replicate hc]
  trivial

omit [DecidableEq α] in
theorem map_text_parents (count : Nat) (names : List (List α)) :
    (List.replicate count Component.up ++ names.map Component.name).map Component.text
      = List.replicate count [dot, dot] ++ names := by
  rw [List.map_append, List.map_replicate, List.map_map]
  simp [Function.comp_def, Component.text]

/-- Parents and then names are the pieces of the path that is written with them. -/
theorem pieces_ofNormal_parents (h : Location.Named names)
    (hne : List.replicate count [dot, dot] ++ names ≠ []) :
    (ofNormal (List.replicate count .up ++ names.map .name)).pieces
      = List.replicate count [dot, dot] ++ names := by
  have hs := isStep_of_parents count h
  have htext := map_text_parents count names
  generalize List.replicate count Component.up ++ names.map Component.name = cs at hs htext
  rw [← htext, ne_eq, List.map_eq_nil_iff] at hne
  obtain ⟨c, cs, rfl⟩ := List.exists_cons_of_ne_nil hne
  rw [ofNormal, ofComponents_of_isStep hs, ← htext]
  refine pieces_joinWith (List.cons_ne_nil _ _) fun t ht => ?_
  obtain ⟨d, hd, rfl⟩ := List.mem_map.1 ht
  exact slash_not_mem_text (hs d hd)

theorem isCanonical_ofNormal_parents (h : Location.Named names) :
    (ofNormal (List.replicate count .up ++ names.map .name)).IsCanonical := by
  by_cases hne : List.replicate count [dot, dot] ++ names = []
  · obtain ⟨hcount, rfl⟩ := List.append_eq_nil_iff.1 hne
    rw [List.replicate_eq_nil_iff] at hcount
    subst hcount
    exact isCanonical_here
  have hp := pieces_ofNormal_parents h hne
  generalize ofNormal (List.replicate count .up ++ names.map .name) = p at hp
  have hnil : [] ∉ p.pieces := by
    rw [hp, List.mem_append, List.mem_replicate, not_or]
    exact ⟨by simp, fun hm => (h _ hm).1 rfl⟩
  have hhere : [dot] ∉ p.pieces := by
    rw [hp, List.mem_append, List.mem_replicate, not_or]
    exact ⟨by simp, fun hm => (h _ hm).2.1 rfl⟩
  have hslashes := nil_notMem_tail_iff.1 fun hm => hnil (List.mem_of_mem_tail hm)
  refine ⟨fun e => hnil ?_, fun hm => absurd hm hhere, hslashes.1,
    fun hl => absurd hl hslashes.2, fun ha => ?_,
    ⟨count, names, hp, fun hm => (h _ hm).2.2.1 rfl⟩⟩
  · rw [pieces, e]
    exact List.mem_cons_self
  · obtain ⟨rest, -, e⟩ := isAbsolute_iff_pieces.1 ha
    exact absurd (e ▸ List.mem_cons_self) hnil

end

theorem isCanonical_normalize (p : Path α) : p.normalize.IsCanonical := by
  obtain ⟨loc, hloc, h⟩ | ⟨count, names, hnames, h⟩ := normalComponents_cases p
  · have hp : p.normalize = loc.toPath := by
      rw [normalize, h, Location.toPath_eq_ofComponents]
      rfl
    rw [hp]
    exact isCanonical_toPath hloc
  · rw [normalize, h]
    exact isCanonical_ofNormal_parents hnames

/-! ## Canonical texts are normal forms -/

theorem ext_pieces {p q : Path α} (h : p.pieces = q.pieces) : p = q :=
  text_eq_iff.1 <| by rw [text_eq_joinWith, h, ← text_eq_joinWith]

/-- A canonical text other than `.` is made of names, apart from its start and from parents. -/
theorem IsCanonical.isName (h : p.IsCanonical) (hhere : p.text ≠ [dot]) {piece : List α}
    (hp : piece ∈ p.pieces) (hne : piece ≠ []) (hup : piece ≠ [dot, dot]) : IsName piece :=
  ⟨hne, fun e => hhere (h.no_here (e ▸ hp)), hup, not_mem_of_mem_splitOn hp⟩

theorem IsCanonical.nil_notMem_tail (h : p.IsCanonical) (hroot : p.text ≠ [slash]) :
    [] ∉ p.pieces.tail :=
  nil_notMem_tail_iff.2 ⟨h.no_doubled_slash, fun hl => hroot (h.no_slash_at_end hl)⟩

theorem IsCanonical.exists_toPath (h : p.IsCanonical) (ha : p.isAbsolute = true) :
    ∃ loc, Location.Named loc ∧ p = loc.toPath := by
  by_cases hroot : p.text = [slash]
  · exact ⟨[], fun t ht => absurd ht List.not_mem_nil, text_eq_iff.1 hroot⟩
  have hhere : p.text ≠ [dot] := by
    intro e
    rw [text_eq_iff (q := ⟨[dot]⟩).1 e, isAbsolute_here] at ha
    cases ha
  obtain ⟨loc, hne, hp⟩ := isAbsolute_iff_pieces.1 ha
  have hup := h.no_up_of_isAbsolute ha
  have htail := h.nil_notMem_tail hroot
  rw [hp, List.tail_cons] at htail
  have hloc : Location.Named loc := fun t ht => by
    have hmem : t ∈ p.pieces := hp ▸ List.mem_cons_of_mem [] ht
    exact h.isName hhere hmem (fun e => htail (e ▸ ht)) fun e => hup (e ▸ hmem)
  exact ⟨loc, hloc, ext_pieces (hp.trans (Location.pieces_toPath hloc hne).symm)⟩

/-- An empty piece in front is the whole text or the start of an absolute one. -/
theorem IsCanonical.nil_notMem_pieces (h : p.IsCanonical) (ha : p.isAbsolute = false) :
    [] ∉ p.pieces := by
  have hroot : p.text ≠ [slash] := by
    intro e
    rw [isAbsolute, e] at ha
    simp at ha
  intro hm
  obtain ⟨first, rest, e⟩ := List.exists_cons_of_ne_nil (pieces_ne_nil p)
  have htail := h.nil_notMem_tail hroot
  rw [e, List.tail_cons] at htail
  obtain rfl : [] = first := (List.mem_cons.1 (e ▸ hm)).resolve_right htail
  by_cases hrest : rest = []
  · subst hrest
    have htext := text_eq_joinWith p
    rw [e] at htext
    exact h.ne_nil htext
  · rw [isAbsolute_iff_pieces.2 ⟨rest, hrest, e⟩] at ha
    cases ha

theorem IsCanonical.exists_parents (h : p.IsCanonical) (ha : p.isAbsolute = false) :
    ∃ count names, Location.Named names
      ∧ p = ofNormal (List.replicate count .up ++ names.map .name) := by
  by_cases hhere : p.text = [dot]
  · exact ⟨0, [], fun t ht => absurd ht List.not_mem_nil, text_eq_iff.1 hhere⟩
  obtain ⟨count, names, hp, hup⟩ := h.ups_first
  have hnil := h.nil_notMem_pieces ha
  have hnames : Location.Named names := fun t ht => by
    have hmem : t ∈ p.pieces := hp ▸ List.mem_append_right _ ht
    exact h.isName hhere hmem (fun e => hnil (e ▸ hmem)) fun e => hup (e ▸ ht)
  exact ⟨count, names, hnames, ext_pieces
    (hp.trans (pieces_ofNormal_parents hnames (hp ▸ pieces_ne_nil p)).symm)⟩

theorem IsCanonical.normalize_eq (h : p.IsCanonical) : p.normalize = p := by
  cases ha : p.isAbsolute with
  | true =>
    obtain ⟨loc, hloc, rfl⟩ := h.exists_toPath ha
    rw [normalize_of_isAbsolute ha, resolve_toPath hloc]
  | false =>
    obtain ⟨count, names, hnames, rfl⟩ := h.exists_parents ha
    have hnormal :
        IsNormal (List.replicate count Component.up ++ names.map Component.name).reverse := by
      rw [List.reverse_append, List.reverse_replicate]
      exact (IsNormal.parents count).append_names hnames
    rw [normalize, normalComponents_ofNormal hnormal]

theorem normalize_eq_self_iff : p.normalize = p ↔ p.IsCanonical :=
  ⟨fun h => h ▸ isCanonical_normalize p, IsCanonical.normalize_eq⟩

/-- The normal form of a path leads where the path leads, it tells just the paths apart that lead to
different places from some directory, and normalizing it again or a canonical text changes nothing.
It is canonical: `.` if the path reduces to nothing, `/` for the root. -/
theorem normalize_canonical (p : Path α) :
    (∀ cwd, p.normalize.resolve cwd = p.resolve cwd)
    ∧ (∀ q : Path α, p.normalize.text = q.normalize.text
      ↔ ∀ cwd, Location.Named cwd → p.resolve cwd = q.resolve cwd)
    ∧ p.normalize.normalize = p.normalize
    ∧ p.normalize.IsCanonical
    ∧ (p.normalize = p ↔ p.IsCanonical)
    ∧ (p.normalize.text = [dot] ↔ ∀ cwd, Location.Named cwd → p.resolve cwd = cwd)
    ∧ (p.normalize.text = [slash] ↔ ∀ cwd, Location.Named cwd → p.resolve cwd = []) := by
  have htells : ∀ q : Path α, p.normalize.text = q.normalize.text
      ↔ ∀ cwd, Location.Named cwd → p.resolve cwd = q.resolve cwd :=
    fun q => text_eq_iff.trans normalize_eq_iff_resolve
  refine ⟨resolve_normalize p, htells, normalize_normalize p, isCanonical_normalize p,
    normalize_eq_self_iff, ?_, ?_⟩
  -- `.` and `/` are normal forms themselves
  · have hhere := htells ⟨[dot]⟩
    rw [isCanonical_here.normalize_eq] at hhere
    rw [hhere]
    simp only [resolve, components_here]
    rfl
  · have hroot := htells ⟨[slash]⟩
    rw [isCanonical_root.normalize_eq] at hroot
    have hnowhere : ∀ cwd, (Path.mk [slash] : Path α).resolve cwd = [] :=
      resolve_toPath (List.forall_mem_nil _)
    simpa only [hnowhere] using hroot

/-- Detours do not count, and one directory is enough to tell a parent from the root. -/
theorem normalize_canonical_of_detour :
    let p : Path := ⟨"./a//b/../../../lib/.".toList⟩
    let q : Path := ⟨"../lib".toList⟩
    let r : Path := ⟨"/lib".toList⟩
    (∀ cwd, Location.Named cwd → p.resolve cwd = q.resolve cwd)
    ∧ ¬ ∀ cwd, Location.Named cwd → p.resolve cwd = r.resolve cwd := by
  intro p q r
  obtain ⟨-, htells, -⟩ := normalize_canonical p
  exact ⟨(htells q).1 (by decide), fun h => absurd ((htells r).2 h) (by decide)⟩

end Path

end Rehome
